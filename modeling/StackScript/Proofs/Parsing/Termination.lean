import StackScript.Proofs.Parsing.Located
import StackScript.Proofs.Parsing.Pace

/-!
# Compiling ends

Every source is compiled in a bounded number of steps, right or wrong.  The end marker
comes last and is no error token, so reading always arrives at a proper token; a declaration
or an expression that does not begin at the end marker reads a token, a recovery goes on at
most to the end marker, and the loops over parameters and arguments read a comma in every
further turn.  So the number of tokens left bounds how deeply phrases nest and how often
loops turn.
-/

namespace StackScript
namespace Compiler

/-- What the functions of the grammar do from one state on towards the end of the source. -/
structure Progresses (c : Compiler) : Prop where
  /-- Reading passes over error tokens. -/
  arrives : c.advance.current.kind ≠ .error
  reads : c.current.kind ≠ .eof → c.advance.unread.length < c.unread.length
  /-- At the end marker reading finds it again. -/
  stays : c.current.kind = .eof → c.advance = { c with previous := c.current }
  declaration : c.current.kind ≠ .eof → ∀ depth,
    (phrase (depth + 3) .declaration c).unread.length < c.unread.length
  expression : c.current.kind ≠ .eof → ∀ depth least,
    (phrase (depth + 1) (.expression least) c).unread.length < c.unread.length
  /-- At the end marker an expression is given up at once. -/
  noExpression : c.current.kind = .eof → ∀ depth least,
    phrase (depth + 1) (.expression least) c =
      ({ c with previous := c.current } : Compiler).report .expectedExpression
  parameter : c.current.kind = .comma → c.advance.parameter.unread.length < c.unread.length
  argument : c.current.kind = .comma → ∀ depth count,
    (argument (phrase depth) count c.advance).2.unread.length < c.unread.length
  /-- Only at a comma there is another parameter. -/
  noParameter : c.current.kind ≠ .comma → ∀ bound,
    repeatWhile (·.check .comma) (fun c => c.advance.parameter) bound c = c
  noArgument : c.current.kind ≠ .comma → ∀ depth bound count,
    moreArguments (phrase depth) bound count c = (count, c)
  /-- A recovery ends where it should, not for want of tokens. -/
  recovers : c.synchronize.current.kind = .eof ∨ c.synchronize.previous.kind = .semicolon ∨
    beginsStatement c.synchronize.current.kind = true
  forward : c.synchronize.unread.length ≤ c.unread.length
  /-- Enough depth for the tokens left is not used up, and more makes no difference. -/
  bounded : c.exhausted = false → ∀ p depth, p ≠ .expression .none →
    2 * c.unread.length + 3 ≤ depth → (phrase depth p c).exhausted = false ∧
      ∀ deeper, depth ≤ deeper → phrase deeper p c = phrase depth p c

variable {c : Compiler}

/-- The tokens do not run out before a recovery has found its place. -/
theorem Supplied.recovers (h : Supplied c) : c.synchronize.current.kind = .eof ∨
    c.synchronize.previous.kind = .semicolon ∨
      beginsStatement c.synchronize.current.kind = true := by
  have found : ∀ c : Compiler, Supplied c → c.skipToStatement.current.kind = .eof ∨
      c.skipToStatement.previous.kind = .semicolon ∨
        beginsStatement c.skipToStatement.current.kind = true := by
    intro c
    fun_induction skipToStatement c with
    | case1 c stop => exact fun _ => by simpa [check, or_assoc] using stop
    | case2 c _ none => exact fun h => .inl (h.unread_eq_nil.mp (List.isEmpty_iff.mp none))
    | case3 c _ _ ih => exact fun h => ih h.advance
  exact found _ ⟨h.ended, h.proper⟩

theorem Supplied.noExpression (h : Supplied c) (last : c.current.kind = .eof) (depth : Nat)
    (least : Precedence) : phrase (depth + 1) (.expression least) c =
      ({ c with previous := c.current } : Compiler).report .expectedExpression := by
  have none : TokenKind.eof.opening? = none := rfl
  simp only [phrase, expressionFrom, h.advance_eof last, last, none]

/-- What is compiled from a state has depth enough with twice the tokens that are left. -/
theorem Supplied.bounded (h : Supplied c) (fresh : c.exhausted = false) {p : Phrase}
    {depth : Nat} (proper : p ≠ .expression .none) (room : 2 * c.unread.length + 3 ≤ depth) :
    (phrase depth p c).exhausted = false ∧
      ∀ deeper, depth ≤ deeper → phrase deeper p c = phrase depth p c := by
  have paced : pacing.Loose c.unread.length c := ⟨h, Nat.le_refl _, fresh⟩
  have meets {deeper : Nat} (le : depth ≤ deeper) :
      Meets Paced (c.unread.length - 1) (phrase depth p c) (phrase deeper p c) := by
    have deep := @Upkeep.deepens_phrase pacing _ _ le
    cases p with
    | expression least =>
        exact deep.expression (fun none => proper (by rw [none])) (by omega) paced
    | statement => exact deep.statement (by omega) paced
    | declaration => exact deep.declaration room paced
  exact ⟨(meets (Nat.le_refl depth)).holds.bounded, fun deeper le => (meets le).same⟩

/-- As long as its tokens end with the marker, the compiler gets on. -/
theorem Supplied.progresses (h : Supplied c) : Progresses c where
  arrives := h.advance.proper
  reads := h.shorter
  stays := h.advance_eof
  declaration more depth := Nat.lt_of_le_of_lt (acts_phrase_advance depth c).unread_le (h.shorter more)
  expression more depth least :=
    Nat.lt_of_le_of_lt (acts_expressionFrom_advance (acts_phrase depth) depth least c).unread_le
      (h.shorter more)
  noExpression := h.noExpression
  parameter comma :=
    Nat.lt_of_le_of_lt (acts_parameter _).unread_le (h.shorter (by rw [comma]; decide))
  argument comma depth count :=
    Nat.lt_of_le_of_lt (acts_argument (acts_phrase depth) count _).unread_le
      (h.shorter (by rw [comma]; decide))
  noParameter other bound := repeatWhile_of_not (by simpa [check] using other) _ bound
  noArgument other depth bound count := by cases bound <;> simp [moreArguments, check, other]
  recovers := h.recovers
  forward := (acts_synchronize c).unread_le
  bounded fresh _ _ := h.bounded fresh

/-- A loop that did not run into its bound has ended. -/
theorem ended_of_bounded {more : Compiler → Bool} {step : Compiler → Compiler} {bound : Nat}
    (bounded : (repeatWhile more step bound c).exhausted = false) :
    more (repeatWhile more step bound c) = false := by
  induction bound generalizing c with
  | zero =>
      by_cases goes : more c = true
      · simp [repeatWhile, goes, giveUp] at bounded
      · simp [repeatWhile, goes]
  | succ bound ih =>
      by_cases goes : more c = true
      · simp only [repeatWhile, goes, if_true] at bounded ⊢
        exact ih bounded
      · simp [repeatWhile, goes]

/-! ## Whole sources -/

variable (source : String) (heap : Heap)

theorem supplied_opening : Supplied (opening source heap) :=
  supplied_fetch _ (scanned_scan source).ended

theorem paced_opening : Paced (opening source heap).unread.length (opening source heap) :=
  ⟨supplied_opening source heap, Nat.le_refl _, fetch_exhausted ..⟩

/-- Every source is compiled to its end.  The depth that the number of its tokens gives is
not used up, and any greater one gives the same; on the way the compiler gets on in every
state that it can come to. -/
theorem compile_terminates (source : String) (heap : Heap) :
    (∀ depth, 2 * (opening source heap).unread.length + 3 ≤ depth →
      repeatWhile (fun c => !c.check .eof) (phrase depth .declaration) depth
        (opening source heap) = declarations (Token.scan source) heap) ∧
    (declarations (Token.scan source) heap).exhausted = false ∧
    (declarations (Token.scan source) heap).current.kind = .eof ∧
    ∀ c, Acts true (opening source heap) c → Progresses c := by
  have fits : 2 * (opening source heap).unread.length + 3 ≤ depthBound (Token.scan source) := by
    have read : (opening source heap).unread.length ≤ (Token.scan source).length - 1 :=
      length_unread_fetch _ _
    simp only [depthBound]
    omega
  have least := Nat.le_refl (2 * (opening source heap).unread.length + 3)
  have opened := paced_opening source heap
  have whole := pacing.meets_declarations fits (Nat.le_refl _) opened
  have bounded : (declarations (Token.scan source) heap).exhausted = false := whole.holds.bounded
  have ended : (!(declarations (Token.scan source) heap).check .eof) = false :=
    ended_of_bounded bounded
  refine ⟨fun depth room => ?_, bounded, ?_, fun c acts => ?_⟩
  · exact (pacing.meets_declarations least room opened).same.trans
      (pacing.meets_declarations least fits opened).same.symm
  · simpa [check] using ended
  · exact (acts.supplied (supplied_opening source heap)).progresses

end Compiler
end StackScript
