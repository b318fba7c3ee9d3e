import StackScript.Proofs.Recognition.Parts
import StackScript.Proofs.Token.Joined

/-!
# One program behind another

A program is a sequence of statements, and two of them make up one.  Which tree some tokens
write depends on their kinds and lexemes only, so a program that is put behind another, with a
line feed between them, still writes its tree (`Statement.Writes.followedBy`).
-/

namespace StackScript

/-! ## The same words elsewhere -/

section

variable {f : Token → Token} (same : ∀ t, (f t).kind = t.kind ∧ (f t).lexeme = t.lexeme)

include same

mutual

/-- Tokens of the same kinds and lexemes write the same expression. -/
theorem Written.map {p : Precedence} {e : Expression} {ts : List Token} (h : Written p e ts) :
    Written p e (ts.map f) := by
  match h with
  | .null word => exact .null ((same _).1.trans word)
  | .true word => exact .true ((same _).1.trans word)
  | .false word => exact .false ((same _).1.trans word)
  | .number literal value => exact .number ((same _).1.trans literal) (by rwa [(same _).2])
  | .string literal =>
      rw [← (same _).2]
      exact .string ((same _).1.trans literal)
  | .variable name =>
      rw [← (same _).2]
      exact .variable ((same _).1.trans name)
  | .grouping opened inner closed =>
      rw [List.map_cons, List.map_append]
      exact .grouping ((same _).1.trans opened) inner.map ((same _).1.trans closed)
  | .parentheses opened inner closed =>
      rw [List.map_cons, List.map_append]
      exact .parentheses ((same _).1.trans opened) inner.map ((same _).1.trans closed)
  | .unary operator operand tight => exact .unary ((same _).1.trans operator) operand.map tight
  | .binary left leftTight operator right rightTight =>
      rw [List.map_append, List.map_cons]
      exact .binary left.map leftTight ((same _).1.trans operator) right.map rightTight
  | .and left leftTight operator right rightTight =>
      rw [List.map_append, List.map_cons]
      exact .and left.map leftTight ((same _).1.trans operator) right.map rightTight
  | .or left leftTight operator right rightTight =>
      rw [List.map_append, List.map_cons]
      exact .or left.map leftTight ((same _).1.trans operator) right.map rightTight
  | .assign name operator value =>
      rw [← (same _).2]
      exact .assign ((same _).1.trans name) ((same _).1.trans operator) value.map
  | .callPlain callee tight opened closed =>
      rw [List.map_append]
      exact .callPlain callee.map tight ((same _).1.trans opened) ((same _).1.trans closed)
  | .call callee tight opened arguments closed =>
      rw [List.map_append, List.map_cons, List.map_append]
      exact .call callee.map tight ((same _).1.trans opened) arguments.map ((same _).1.trans closed)

theorem WrittenList.map {es : List Expression} {ts : List Token} (h : WrittenList es ts) :
    WrittenList es (ts.map f) := by
  match h with
  | .single only => exact .single only.map
  | .cons first comma others =>
      rw [List.map_append, List.map_cons]
      exact .cons first.map ((same _).1.trans comma) others.map

end

theorem DeclarationWritten.map {s : Statement} {ts : List Token} (h : DeclarationWritten s ts) :
    DeclarationWritten s (ts.map f) := by
  cases h with
  | plain word name closed =>
      rw [← (same _).2]
      exact .plain ((same _).1.trans word) ((same _).1.trans name) ((same _).1.trans closed)
  | initialized word name equal value closed =>
      rw [← (same _).2, List.map_cons, List.map_cons, List.map_cons, List.map_append]
      exact .initialized ((same _).1.trans word) ((same _).1.trans name) ((same _).1.trans equal)
        (value.map same) ((same _).1.trans closed)

theorem InitializerWritten.map {s : Statement} {ts : List Token} (h : InitializerWritten s ts) :
    InitializerWritten s (ts.map f) := by
  cases h with
  | none closed => exact .none ((same _).1.trans closed)
  | declaration written => exact .declaration (written.map same)
  | expression value closed =>
      rw [List.map_append]
      exact .expression (value.map same) ((same _).1.trans closed)

theorem ClauseWritten.map {clause : Option Expression} {ts : List Token} (h : ClauseWritten clause ts) :
    ClauseWritten clause (ts.map f) := by
  cases h with
  | none => exact .none
  | some value => exact .some (value.map same)

theorem NamesWritten.map {names : List String} {ts : List Token} (h : NamesWritten names ts) :
    NamesWritten names (ts.map f) := by
  induction h with
  | single name =>
      rw [← (same _).2]
      exact .single ((same _).1.trans name)
  | cons name comma _ ih =>
      rw [← (same _).2]
      exact .cons ((same _).1.trans name) ((same _).1.trans comma) ih

theorem ParametersWritten.map {names : List String} {ts : List Token} (h : ParametersWritten names ts) :
    ParametersWritten names (ts.map f) := by
  cases h with
  | none => exact .none
  | some list => exact .some (list.map same)

/-- Tokens of the same kinds and lexemes write the same statement. -/
theorem StatementWritten.map {k : Category} {ends : Bool} {s : Statement} {ts : List Token}
    (h : StatementWritten k ends s ts) : StatementWritten k ends s (ts.map f) := by
  induction h with
  | print word value closed =>
      rw [List.map_cons, List.map_append]
      exact .print ((same _).1.trans word) (value.map same) ((same _).1.trans closed)
  | expression value closed =>
      rw [List.map_append]
      exact .expression (value.map same) ((same _).1.trans closed)
  | block opened _ closed ih =>
      rw [List.map_cons, List.map_append]
      exact .block ((same _).1.trans opened) ih ((same _).1.trans closed)
  | when word opened test closed _ yes =>
      rw [List.map_cons, List.map_cons, List.map_append, List.map_cons]
      exact .when ((same _).1.trans word) ((same _).1.trans opened) (test.map same)
        ((same _).1.trans closed) yes
  | choose word opened test closed _ other _ yes no =>
      rw [List.map_cons, List.map_cons, List.map_append, List.map_cons, List.map_append, List.map_cons]
      exact .choose ((same _).1.trans word) ((same _).1.trans opened) (test.map same)
        ((same _).1.trans closed) yes ((same _).1.trans other) no
  | whileLoop word opened test closed _ body =>
      rw [List.map_cons, List.map_cons, List.map_append, List.map_cons]
      exact .whileLoop ((same _).1.trans word) ((same _).1.trans opened) (test.map same)
        ((same _).1.trans closed) body
  | forLoop word opened first second middle third closed _ body =>
      rw [List.map_cons, List.map_cons, List.map_append, List.map_append, List.map_cons,
        List.map_append, List.map_cons]
      exact .forLoop ((same _).1.trans word) ((same _).1.trans opened) (first.map same)
        (second.map same) ((same _).1.trans middle) (third.map same)
        ((same _).1.trans closed) body
  | leave word closed => exact .leave ((same _).1.trans word) ((same _).1.trans closed)
  | again word closed => exact .again ((same _).1.trans word) ((same _).1.trans closed)
  | giveBack word clause closed =>
      rw [List.map_cons, List.map_append]
      exact .giveBack ((same _).1.trans word) (clause.map same) ((same _).1.trans closed)
  | declare written => exact .declare (written.map same)
  | define word name opened parameters closed begun _ ended body =>
      rw [← (same _).2, List.map_cons, List.map_cons, List.map_cons, List.map_append, List.map_cons,
        List.map_cons, List.map_append]
      exact .define ((same _).1.trans word) ((same _).1.trans name) ((same _).1.trans opened)
        (parameters.map same) ((same _).1.trans closed) ((same _).1.trans begun) body
        ((same _).1.trans ended)
  | statement _ ih => exact .statement ih
  | done => exact .done
  | next _ _ first rest =>
      rw [List.map_append]
      exact .next first rest

end

/-! ## Sequences -/

namespace Statement

/-- The statement is a sequence, to its end. -/
def Listed : Statement → Prop
  | .done => True
  | .next _ rest => rest.Listed
  | _ => False

/-- The statements of one sequence, then those of another. -/
def followedBy : Statement → Statement → Statement
  | .next first rest, s => .next first (rest.followedBy s)
  | _, s => s

end Statement

theorem StatementWritten.listed {ends : Bool} {s : Statement} {ts : List Token}
    (h : StatementWritten .sequence ends s ts) : s.Listed := by
  generalize same : Category.sequence = k at h
  induction h with
  | done => trivial
  | next _ _ _ rest => exact rest same
  | _ => cases same

theorem StatementWritten.followedBy {ends ends' : Bool} {s s' : Statement} {ts us : List Token}
    (h : StatementWritten .sequence ends s ts) (h' : StatementWritten .sequence ends' s' us) :
    StatementWritten .sequence ends' (s.followedBy s') (ts ++ us) := by
  generalize same : Category.sequence = k at h
  induction h with
  | done => exact h'
  | next first _ _ rest =>
      rw [List.append_assoc]
      exact .next first (rest same)
  | _ => cases same

theorem Statement.Writes.listed {s : Statement} {source : String} (h : s.Writes source) : s.Listed := by
  obtain ⟨ts, e, ends, -, -, written⟩ := h
  exact written.listed

/-- One program behind another, with a line feed between them, is a program. -/
theorem Statement.Writes.followedBy {s s' : Statement} {source source' : String} (h : s.Writes source)
    (h' : s'.Writes source') (fine : ∀ t ∈ Token.scan source, t.kind ≠ .error) :
    (s.followedBy s').Writes (source ++ "\n" ++ source') := by
  obtain ⟨ts, e, ends, tokens, last, written⟩ := h
  obtain ⟨us, e', ends', tokens', last', written'⟩ := h'
  obtain ⟨vs, e'', bytes, lines, same, joined⟩ := Token.scan_joined source' fine
  obtain ⟨rfl, -⟩ := List.append_singleton_inj.mp (same.symm.trans tokens)
  refine ⟨vs ++ us.map (.later bytes lines), e'.later bytes lines, ends', ?_, last', ?_⟩
  · rw [joined, tokens', List.map_append, List.map_singleton, List.append_assoc]
  · have moved : ∀ t, (Token.later bytes lines t).kind = t.kind ∧
        (Token.later bytes lines t).lexeme = t.lexeme := fun _ => ⟨rfl, rfl⟩
    exact written.followedBy (written'.map moved)

end StackScript
