import StackScript.Proofs.Parsing.Expression
import StackScript.Proofs.Recognition.Reading

/-!
# What is read as an expression is one

The counterpart of the reading of written expressions: whatever tokens there are, a
phrase that reports nothing has read a way to write some expression, and has read as
much as it could.  The proof goes along the functions of the parser; the loop over
operators keeps an `Operand` that the next operator may take as its left one.
-/

namespace StackScript

theorem Precedence.rank_le_primary (p : Precedence) : p.rank ≤ Precedence.primary.rank := by
  cases p <;> decide

namespace TokenKind

variable {kind : TokenKind}

theorem eq_of_opening_grouping (h : kind.opening? = some .grouping) : kind = .leftParen := by
  cases kind <;> first | rfl | cases h

theorem eq_of_opening_unary (h : kind.opening? = some .unary) :
    ∃ op : UnaryOperator, kind = op.kind := by
  cases kind <;> first | cases h
  · exact ⟨.negate, rfl⟩
  · exact ⟨.not, rfl⟩

theorem eq_of_opening_variable (h : kind.opening? = some .variable) : kind = .identifier := by
  cases kind <;> first | rfl | cases h

theorem eq_of_opening_string (h : kind.opening? = some .string) : kind = .string := by
  cases kind <;> first | rfl | cases h

theorem eq_of_opening_number (h : kind.opening? = some .number) : kind = .number := by
  cases kind <;> first | rfl | cases h

theorem eq_of_opening_literal (h : kind.opening? = some .literal) :
    kind = .null ∨ kind = .true ∨ kind = .false := by
  cases kind <;> first | (simp; done) | cases h

theorem eq_of_continuation_binary (h : kind.continuation? = some .binary) :
    ∃ op : BinaryOperator, kind = op.kind := by
  cases kind <;> first | cases h
  · exact ⟨.subtract, rfl⟩
  · exact ⟨.add, rfl⟩
  · exact ⟨.divide, rfl⟩
  · exact ⟨.multiply, rfl⟩
  · exact ⟨.notEqual, rfl⟩
  · exact ⟨.equal, rfl⟩
  · exact ⟨.greater, rfl⟩
  · exact ⟨.greaterEqual, rfl⟩
  · exact ⟨.less, rfl⟩
  · exact ⟨.lessEqual, rfl⟩

theorem eq_of_continuation_and (h : kind.continuation? = some .and) : kind = .and := by
  cases kind <;> first | rfl | cases h

theorem eq_of_continuation_or (h : kind.continuation? = some .or) : kind = .or := by
  cases kind <;> first | rfl | cases h

theorem eq_of_continuation_call (h : kind.continuation? = some .call) : kind = .leftParen := by
  cases kind <;> first | rfl | cases h

/-- A token that binds at all continues an expression. -/
theorem precedence_of_continuation_none (h : kind.continuation? = none) :
    kind.precedence = .none := by
  cases kind <;> first | rfl | cases h

theorem precedence_le_call (kind : TokenKind) :
    kind.precedence.rank ≤ Precedence.call.rank := by
  cases kind <;> decide

end TokenKind

namespace Compiler

/-- A construct that a token leaves complete binds tightly enough to stand before it. -/
theorem Completes.le {p : Precedence} {kind : TokenKind} (h : Completes p kind) :
    kind.precedence.rank ≤ p.rank := by
  have bound := kind.precedence_le_call
  unfold Completes at h
  cases p with
  | call => exact bound
  | primary => exact Nat.le_trans bound (by decide)
  | equality | comparison | term | factor => exact h
  | _ => exact Nat.le_of_lt h

/-- Before an `and` or `or` it binds tighter than that. -/
theorem Completes.lt {p : Precedence} {kind : TokenKind} (h : Completes p kind)
    (loose : kind.precedence.rank ≤ Precedence.and.rank) : kind.precedence.rank < p.rank := by
  unfold Completes at h
  cases p <;> first | exact h | exact Nat.lt_of_le_of_lt loose (by decide)

/-- The tokens write an expression that a construct of precedence `least` may hold, and
the operator behind it may take it as its left operand. -/
def Operand (least : Precedence) (after : Token) (ts : List Token) : Prop :=
  ∃ p e, least.rank ≤ p.rank ∧ Written p e ts ∧ Completes p after.kind

/-- The tokens write an expression of a precedence, and nothing behind it belongs to it. -/
def Whole (least : Precedence) (after : Token) (ts : List Token) : Prop :=
  ∃ p e, least.rank ≤ p.rank ∧ Written p e ts ∧ after.kind.precedence.rank < least.rank ∧
    (least = .assignment → after.kind ≠ .equal)

/-- At this depth expressions are read as they are written. -/
def Recognizes (depth : Nat) : Prop :=
  ∀ ⦃least : Precedence⦄ ⦃c : Compiler⦄, Precedence.assignment.rank ≤ least.rank →
    least.rank ≤ Precedence.unary.rank → 2 * c.left < depth →
    Finds c (phrase depth (.expression least) c)
      (Whole least (phrase depth (.expression least) c).current)

section Phrases

variable {depth : Nat} (ih : Recognizes depth) {c : Compiler} {least : Precedence}
include ih

theorem finds_expression (fuel : 2 * c.left < depth) :
    Finds c (c.expression (phrase depth))
      (Whole .assignment (c.expression (phrase depth)).current) :=
  ih (Nat.le_refl _) (by decide) fuel

/-! ## Beginnings -/

theorem finds_grouping (fuel : 2 * c.left < depth) :
    Finds c (c.grouping (phrase depth)) fun ts =>
      ∃ p e us r, ts = us ++ [r] ∧ Written p e us ∧ r.kind = .rightParen := by
  refine ((finds_expression ih fuel).bind (acts_consume _ _ _) fun _ _ _ =>
    finds_consume _ (by decide) _).map ?_
  rintro _ ⟨us, _, rfl, ⟨p, e, -, written, -⟩, r, rfl, closed⟩
  exact ⟨p, e, us, r, rfl, written, closed⟩

theorem finds_unary (fuel : 2 * c.left < depth) :
    Finds c (c.unary (phrase depth)) (Whole .unary (c.unary (phrase depth)).current) := by
  have operand : Finds c _ _ := ih (by decide) (Nat.le_refl _) fuel
  unfold unary
  dsimp only
  split
  · refine operand.still (acts_emit _ .not) fun same ts whole => ?_
    rwa [same]
  · refine operand.still (acts_emit _ .negate) fun same ts whole => ?_
    rwa [same]
  · exact operand

/-- A variable, or an assignment to it. -/
theorem finds_variableUse (canAssign : Bool) (fuel : 2 * c.left < depth) :
    Finds c (c.variableUse (phrase depth) canAssign) fun ts => ts = [] ∨
      canAssign = true ∧ ∃ s us, ts = s :: us ∧ s.kind = .equal ∧
        Whole .assignment (c.variableUse (phrase depth) canAssign).current us := by
  have resolved : Acts false c (c.resolve c.previous.lexeme).2 := acts_resolve _ _
  have fuel : 2 * (c.resolve c.previous.lexeme).2.left < depth := by
    rw [left, resolved.stream]
    exact fuel
  unfold variableUse
  dsimp only
  generalize c.resolve c.previous.lexeme = resolution at resolved fuel
  obtain ⟨target, c'⟩ := resolution
  dsimp only at resolved fuel ⊢
  split
  · rename_i assigns
    obtain ⟨can, equal⟩ := Bool.and_eq_true_iff.mp assigns
    refine Finds.after resolved (fun _ => ?_) (((acts_advance _).trans
      (acts_phrase _ _ _)).trans (acts_emitWrite _ _))
    have read := (finds_check equal (by decide)).bind
      (acts_expression (acts_phrase depth) _) fun ts stream same => finds_expression ih (by
        have := left_of_append stream
        omega)
    refine read.still (acts_emitWrite _ target) ?_
    rintro same _ ⟨_, us, rfl, ⟨q, rfl, assigned⟩, whole⟩
    rw [← same] at whole
    exact .inr ⟨can, q, us, rfl, assigned, whole⟩
  · exact (finds_nothing (resolved.trans (acts_emitRead _ _))).map fun ts empty => .inl empty

theorem finds_openExpression (high : least.rank ≤ Precedence.unary.rank)
    (fuel : 2 * c.left < depth) (opening : Opening)
    (found : c.previous.kind.opening? = some opening) :
    let c' := c.openExpression (phrase depth) (least.admits .assignment) opening
    Finds c c' fun ts => Operand least c'.current (c.previous :: ts) := by
  have primary := least.rank_le_primary
  match opening with
  | .grouping =>
      refine (finds_grouping ih fuel).map ?_
      rintro _ ⟨p, e, us, r, rfl, written, closed⟩
      exact ⟨_, _, primary, .grouping (TokenKind.eq_of_opening_grouping found) written closed,
        trivial⟩
  | .unary =>
      obtain ⟨op, operator⟩ := TokenKind.eq_of_opening_unary found
      refine (finds_unary ih fuel).map ?_
      rintro us ⟨p, e, tight, written, next, -⟩
      exact ⟨_, _, high, .unary operator written tight, next⟩
  | .variable =>
      have name := TokenKind.eq_of_opening_variable found
      refine (finds_variableUse ih (least.admits .assignment) fuel).map ?_
      rintro _ (rfl | ⟨can, s, us, rfl, equal, p, e, -, written, next, -⟩)
      · exact ⟨_, _, primary, .variable name, trivial⟩
      · exact ⟨_, _, by simpa [Precedence.admits] using can, .assign name equal written, next⟩
  | .string =>
      have literal := TokenKind.eq_of_opening_string found
      have acts : Acts false c c.stringLiteral :=
        (acts_intern c _).trans (acts_emitConstant _ (made_intern c _))
      refine (finds_nothing acts).map ?_
      rintro _ rfl
      exact ⟨_, _, primary, .string literal, trivial⟩
  | .number =>
      have literal := TokenKind.eq_of_opening_number found
      simp only [openExpression, numberLiteral]
      cases value : Number.ofLiteral? c.previous.lexeme with
      | none => exact finds_report .refl
      | some x =>
          have acts : Acts false c (c.emitConstant (.number x)) :=
            acts_emitConstant c (.number value)
          refine (finds_nothing acts).map ?_
          rintro _ rfl
          exact ⟨_, _, primary, .number literal value, trivial⟩
  | .literal =>
      have acts : Acts false c c.wordLiteral := by
        unfold wordLiteral
        split
        · exact acts_emit _ _
        · exact acts_emit _ _
        · exact acts_emit _ _
        · exact .refl
      refine (finds_nothing acts).map ?_
      rintro _ rfl
      rcases TokenKind.eq_of_opening_literal found with word | word | word
      · exact ⟨_, _, primary, .null word, trivial⟩
      · exact ⟨_, _, primary, .true word, trivial⟩
      · exact ⟨_, _, primary, .false word, trivial⟩
  -- a token that opens nothing is reported
  | .unsupported => exact finds_report .refl

theorem finds_opened (high : least.rank ≤ Precedence.unary.rank) (fuel : 2 * c.left ≤ depth) :
    Finds c (opened depth least c) (Operand least (opened depth least c).current) := by
  unfold opened
  cases found : c.advance.previous.kind.opening? with
  | none => exact finds_report (acts_advance c)
  | some opening =>
      have more : c.current.kind ≠ .eof := by
        rw [advance_previous] at found
        intro last
        rw [last] at found
        cases found
      have whole := (finds_advance c more).bind
        (acts_openExpression (acts_phrase depth) _ _ opening) fun ts stream same => by
          have := left_of_append stream
          rw [same, List.length_singleton] at this
          exact finds_openExpression ih high (by omega) opening found
      refine whole.map ?_
      rintro _ ⟨_, us, rfl, rfl, operand⟩
      rwa [advance_previous] at operand

/-! ## Operators -/

theorem finds_argument (count : Nat) (fuel : 2 * c.left < depth) :
    Finds c (argument (phrase depth) count c).2 fun ts => ∃ p e, Written p e ts := by
  have value : Finds c (c.expression (phrase depth)) fun ts => ∃ p e, Written p e ts := by
    refine (finds_expression ih fuel).map ?_
    rintro ts ⟨p, e, -, written, -⟩
    exact ⟨p, e, written⟩
  unfold argument
  dsimp only
  split
  · exact value.still (acts_report _ rfl) fun _ _ => id
  · exact value

/-- More arguments, each after a comma. -/
theorem finds_moreArguments {bound : Nat} (count : Nat) (room : c.left ≤ bound)
    (fuel : 2 * c.left < depth) :
    Finds c (moreArguments (phrase depth) bound count c).2 fun ts => ts = [] ∨
      ∃ m es us, ts = m :: us ∧ m.kind = .comma ∧ WrittenList es us := by
  induction bound generalizing c count with
  | zero => simp [left, Compiler.stream] at room
  | succ bound rest =>
      unfold moreArguments
      split
      · rename_i comma
        have read := finds_check comma (by decide)
        refine ((read.bind (acts_argument (acts_phrase depth) count _) fun ts stream same =>
          finds_argument ih count ?_).bind (acts_moreArguments (acts_phrase depth) bound _ _)
            fun ts stream same => rest _ ?_ ?_).map ?_
        · have := left_of_append stream
          omega
        · obtain ⟨vs, us, rfl, ⟨m, rfl, -⟩, -⟩ := same
          have := left_of_append stream
          simp only [List.length_append, List.length_singleton] at this
          omega
        · have := left_of_append stream
          omega
        · rintro _ ⟨_, vs, rfl, ⟨_, us, rfl, ⟨k, rfl, comma⟩, p, e, written⟩, others⟩
          rcases others with rfl | ⟨m, es, ws, rfl, comma', others⟩
          · exact .inr ⟨_, [e], us, by simp, comma, .single written⟩
          · exact .inr ⟨_, e :: es, us ++ m :: ws, by simp, comma, .cons written comma' others⟩
      · exact (finds_nothing .refl).map fun _ empty => .inl empty

theorem finds_arguments {bound : Nat} (room : c.left ≤ bound) (fuel : 2 * c.left < depth) :
    Finds c (c.arguments (phrase depth) bound).2 fun ts => ∃ us r, ts = us ++ [r] ∧
      r.kind = .rightParen ∧ (us = [] ∨ ∃ es, WrittenList es us) := by
  have listed : Finds c
      (if c.check .rightParen then ((0, c) : Nat × Compiler)
      else moreArguments (phrase depth) bound (argument (phrase depth) 0 c).1
        (argument (phrase depth) 0 c).2).2 fun us => us = [] ∨ ∃ es, WrittenList es us := by
    split
    · exact (finds_nothing .refl).map fun _ => .inl
    · refine ((finds_argument ih 0 fuel).bind (acts_moreArguments (acts_phrase depth) bound _ _)
        fun ts stream _ => finds_moreArguments ih _ ?_ ?_).map ?_
      · have := left_of_append stream
        omega
      · have := left_of_append stream
        omega
      · rintro _ ⟨us, _, rfl, ⟨p, e, written⟩, rfl | ⟨m, es, vs, rfl, comma, others⟩⟩
        · exact .inr ⟨[e], by simpa using .single written⟩
        · exact .inr ⟨_, .cons written comma others⟩
  refine (listed.bind (acts_consume _ .rightParen (.expectedMark ")" "after arguments"))
    fun _ _ _ => finds_consume _ (by decide) _).map ?_
  rintro _ ⟨us, _, rfl, list, r, rfl, closed⟩
  exact ⟨us, r, rfl, closed, list⟩

/-- An operand behind the jumps that skip it. -/
theorem finds_skipped {c' : Compiler} (low : Precedence.assignment.rank ≤ least.rank)
    (high : least.rank ≤ Precedence.unary.rank) (fuel : 2 * c.left < depth) (jumps : Acts false c c')
    (site : Nat) :
    let last := (phrase depth (.expression least) c').patchJump site
    Finds c last (Whole least last.current) := by
  intro last
  have fuel : 2 * c'.left < depth := by
    rw [left, jumps.stream]
    exact fuel
  refine (Finds.after jumps (fun _ => ih low high fuel) (acts_phrase _ _ _)).still
    (acts_patchJump _ _) fun still ts whole => ?_
  rwa [still]

/-- An operator whose token has been read takes the tokens before it as its left operand. -/
theorem finds_continueExpression {us : List Token} {k : Token} (before : Operand least k us)
    (low : Precedence.assignment.rank ≤ least.rank)
    (binds : least.rank ≤ k.kind.precedence.rank) (read : c.previous = k)
    (room : c.left ≤ depth) (fuel : 2 * c.left < depth) :
    let c' := c.continueExpression (phrase depth) depth c.previous.kind.continuation?
    Finds c c' fun ts => Operand least c'.current (us ++ k :: ts) := by
  obtain ⟨p, e, tight, written, complete⟩ := before
  rw [read]
  cases found : k.kind.continuation? with
  | none =>
      -- a token that continues nothing binds less tightly than anything
      rw [TokenKind.precedence_of_continuation_none found] at binds
      exact absurd (Nat.le_trans low binds) (by decide)
  | some continuation =>
  cases continuation with
  | binary =>
      obtain ⟨op, operator⟩ := TokenKind.eq_of_continuation_binary found
      have next : op.precedence.tighter.rank = op.precedence.rank + 1 := by cases op <;> rfl
      have low : Precedence.assignment.rank ≤ op.precedence.tighter.rank := by
        cases op <;> decide
      have high : op.precedence.tighter.rank ≤ Precedence.unary.rank := by cases op <;> decide
      have same : c.binary (phrase depth) =
          (phrase depth (.expression op.precedence.tighter) c).emitBinary op.kind := by
        simp only [binary, read, operator, op.precedence_kind]
      simp only [continueExpression, same]
      rw [operator, op.precedence_kind] at binds
      refine (ih low high fuel).still (acts_emitBinary _ _) fun still vs whole => ?_
      obtain ⟨q, e', tight', written', stop, -⟩ := whole
      have leftTight := complete.le
      rw [operator, op.precedence_kind] at leftTight
      refine ⟨_, _, binds, .binary written leftTight operator written' (by omega), ?_⟩
      rw [still]
      -- the right operand stopped at a token that binds no tighter than the operator
      unfold Completes
      cases op <;> exact Nat.le_of_lt_succ stop
  | and =>
      have operator := TokenKind.eq_of_continuation_and found
      rw [operator] at binds complete
      have loose : TokenKind.and.precedence.rank ≤ Precedence.and.rank := Nat.le_refl _
      have jump : Acts false c ((c.emitJump .jumpIfFalse).emit .pop) :=
        (acts_emitJump _ _).trans (acts_emit _ _)
      refine (finds_skipped ih (by decide) (by decide) fuel jump _).map ?_
      rintro _ ⟨q, e', tight', written', stop, -⟩
      exact ⟨_, _, binds, .and written (complete.lt loose) operator written' tight', stop⟩
  | or =>
      have operator := TokenKind.eq_of_continuation_or found
      rw [operator] at binds complete
      have loose : TokenKind.or.precedence.rank ≤ Precedence.and.rank := by decide
      let c' := (((c.emitJump .jumpIfFalse).emitJump .jump).patchJump (c.here + 1)).emit .pop
      have jump : Acts false c c' :=
        (((acts_emitJump _ _).trans (acts_emitJump _ _)).trans (acts_patchJump _ _)).trans
          (acts_emit _ _)
      refine (finds_skipped ih (by decide) (by decide) fuel jump _).map ?_
      rintro _ ⟨q, e', tight', written', stop, -⟩
      exact ⟨_, _, binds, .or written (complete.lt loose) operator written' tight', stop⟩
  | call =>
      have opened := TokenKind.eq_of_continuation_call found
      rw [opened] at binds complete
      refine (finds_arguments ih room fuel).still (acts_emitByte _ _ _) ?_
      rintro - _ ⟨vs, r, rfl, closed, rfl | ⟨es, given⟩⟩
      · exact ⟨_, _, binds, .callPlain written complete.le opened closed, trivial⟩
      · exact ⟨_, _, binds, .call written complete.le opened given closed, trivial⟩
  | unsupported => exact finds_report .refl

theorem finds_continueOnce {us : List Token} (before : Operand least c.current us)
    (low : Precedence.assignment.rank ≤ least.rank)
    (binds : least.rank ≤ c.current.kind.precedence.rank) (fuel : 2 * c.left ≤ depth) :
    let c' := continueOnce (phrase depth) depth c
    Finds c c' fun ts => ts ≠ [] ∧ Operand least c'.current (us ++ ts) := by
  have more : c.current.kind ≠ .eof := by
    intro last
    rw [last] at binds
    exact absurd (Nat.le_trans low binds) (by decide)
  have follow : Acts true c.advance (continueOnce (phrase depth) depth c) :=
    acts_continueExpression (acts_phrase depth) depth _ _
  have whole := (finds_advance c more).bind follow fun ts stream same => by
    have := left_of_append stream
    rw [same, List.length_singleton] at this
    exact finds_continueExpression ih before low binds (advance_previous c) (by omega) (by omega)
  refine whole.map ?_
  rintro _ ⟨_, vs, rfl, rfl, operand⟩
  exact ⟨List.cons_ne_nil _ _, operand⟩

/-- The loop over operators ends before an operator that binds too loosely. -/
theorem finds_turns {bound : Nat} {us : List Token} (before : Operand least c.current us)
    (low : Precedence.assignment.rank ≤ least.rank) (room : c.left ≤ bound)
    (fuel : 2 * c.left ≤ depth) :
    let c' := turns depth least bound c
    Finds c c' fun ts => Operand least c'.current (us ++ ts) ∧
      c'.current.kind.precedence.rank < least.rank := by
  induction bound generalizing c us with
  | zero => simp [left, Compiler.stream] at room
  | succ bound rest =>
      by_cases binds : least.rank ≤ c.current.kind.precedence.rank
      · have follow : Acts true (continueOnce (phrase depth) depth c)
            (turns depth least bound (continueOnce (phrase depth) depth c)) :=
          acts_repeatWhile (acts_continueOnce (acts_phrase depth) depth) bound _
        have whole := (finds_continueOnce ih before low binds fuel).bind follow
          fun ts stream read => by
            have := left_of_append stream
            have := List.length_pos_of_ne_nil read.1
            exact rest read.2 (by omega) (by omega)
        simp only [turns_succ (c := c) rfl binds]
        refine whole.map ?_
        rintro _ ⟨ts, vs, rfl, -, operand, stop⟩
        rw [← List.append_assoc]
        exact ⟨operand, stop⟩
      · have stop : c.current.kind.precedence.rank < least.rank := Nat.lt_of_not_le binds
        simp only [turns_stop (c := c) rfl stop]
        refine (finds_nothing .refl).map ?_
        rintro _ rfl
        rw [List.append_nil]
        exact ⟨before, stop⟩

end Phrases

/-- Expressions are read as they are written, however deeply they nest. -/
theorem recognizes_expression (depth : Nat) : Recognizes depth := by
  induction depth with
  | zero => exact fun _ _ _ _ fuel => absurd fuel (Nat.not_lt_zero _)
  | succ depth ih =>
      intro least c low high fuel
      by_cases opens : c.current.kind.opening?.isSome
      · let c₁ := opened depth least c
        let c₂ := turns depth least depth c₁
        have follow : Acts true c₁ c₂ :=
          acts_repeatWhile (acts_continueOnce (acts_phrase depth) depth) depth _
        have loop := (finds_opened ih high (by omega)).bind follow fun ts stream operand => by
          have := left_of_append stream
          exact finds_turns ih operand low (by omega) (by omega)
        rw [phrase_expression opens]
        show Finds c (if least.admits .assignment && c₂.check .equal then _ else c₂)
          (Whole least (if least.admits .assignment && c₂.check .equal then _ else c₂).current)
        split
        · exact finds_report (loop.acts.trans (acts_advance _))
        · rename_i fine
          refine loop.map ?_
          rintro _ ⟨us, vs, rfl, -, ⟨p, e, tight, written, -⟩, stop⟩
          refine ⟨p, e, tight, written, stop, ?_⟩
          rintro rfl equal
          exact fine (by simp [Precedence.admits, check, equal])
      · have none : phrase (depth + 1) (.expression least) c =
            c.advance.report .expectedExpression := by
          rw [Option.not_isSome_iff_eq_none] at opens
          simp only [phrase, expressionFrom, advance_previous, opens]
        rw [none]
        exact finds_report (acts_advance c)


end Compiler
end StackScript
