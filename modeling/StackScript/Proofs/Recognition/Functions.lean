import StackScript.Proofs.Recognition.Declared

/-!
# Functions in the order of the source

The names behind the word for functions, as they follow one another in the source, are those of
the functions of its tree, each before those inside it (`Statement.Writes.functionNames`).
-/

namespace StackScript

namespace Token

/-- The names behind the word for functions. -/
def functionNames : List Token → List String
  | [] => []
  | word :: ts =>
      if word.kind = .fn then (ts.take 1).map lexeme ++ functionNames ts else functionNames ts

/-- No function is declared by these tokens. -/
def Plain (ts : List Token) : Prop := ∀ t ∈ ts, t.kind ≠ .fn

section

variable {t : Token} {ts us : List Token}

theorem functionNames_cons (other : t.kind ≠ .fn) (ts : List Token) :
    functionNames (t :: ts) = functionNames ts := if_neg other

theorem functionNames_fn {name : Token} (word : t.kind = .fn) (ts : List Token) :
    functionNames (t :: name :: ts) = name.lexeme :: functionNames (name :: ts) := by
  rw [functionNames, if_pos word]
  rfl

theorem Plain.functionNames (h : Plain ts) (us : List Token) :
    functionNames (ts ++ us) = functionNames us := by
  induction ts with
  | nil => rfl
  | cons t ts ih =>
      obtain ⟨first, others⟩ := List.forall_mem_cons.mp h
      rw [List.cons_append, functionNames_cons first, ih others]

theorem plain_nil : Plain [] := fun _ mem => absurd mem List.not_mem_nil

theorem plain_cons {kind : TokenKind} (known : t.kind = kind) (other : kind ≠ .fn) (h : Plain ts) :
    Plain (t :: ts) := List.forall_mem_cons.mpr ⟨known ▸ other, h⟩

theorem Plain.append (h : Plain ts) (h' : Plain us) : Plain (ts ++ us) := List.forall_mem_append.mpr ⟨h, h'⟩

end

end Token

open Token

mutual

/-- An expression declares no function. -/
theorem Written.plain {p : Precedence} {e : Expression} {ts : List Token} (h : Written p e ts) : Plain ts := by
  match h with
  | .null word | .true word | .false word => exact plain_cons word (by decide) plain_nil
  | .number literal _ | .string literal => exact plain_cons literal (by decide) plain_nil
  | .variable name => exact plain_cons name (by decide) plain_nil
  | .grouping opened inner closed | .parentheses opened inner closed =>
      exact plain_cons opened (by decide) (inner.plain.append (plain_cons closed (by decide) plain_nil))
  | @Written.unary _ _ op _ _ operator operand _ =>
      exact plain_cons operator (by cases op <;> decide) operand.plain
  | @Written.binary _ _ _ op _ _ _ _ left _ operator right _ =>
      exact left.plain.append (plain_cons operator (by cases op <;> decide) right.plain)
  | .and left _ operator right _ | .or left _ operator right _ =>
      exact left.plain.append (plain_cons operator (by decide) right.plain)
  | .assign name operator value =>
      exact plain_cons name (by decide) (plain_cons operator (by decide) value.plain)
  | .callPlain callee _ opened closed =>
      exact callee.plain.append (plain_cons opened (by decide) (plain_cons closed (by decide) plain_nil))
  | .call callee _ opened arguments closed =>
      exact callee.plain.append (plain_cons opened (by decide)
        (arguments.plain.append (plain_cons closed (by decide) plain_nil)))

theorem WrittenList.plain {es : List Expression} {ts : List Token} (h : WrittenList es ts) : Plain ts := by
  match h with
  | .single only => exact only.plain
  | .cons first comma others => exact first.plain.append (plain_cons comma (by decide) others.plain)

end

theorem DeclarationWritten.names_none {s : Statement} {ts : List Token} (h : DeclarationWritten s ts) :
    Plain ts := by
  have word {t : Token} {assignable : Bool} {ts : List Token}
      (h : t.kind = if assignable then .var else .const) (rest : Plain ts) : Plain (t :: ts) :=
    plain_cons h (by cases assignable <;> decide) rest
  cases h with
  | plain kind name closed =>
      exact word kind (plain_cons name (by decide) (plain_cons closed (by decide) plain_nil))
  | initialized kind name equal value closed =>
      exact word kind (plain_cons name (by decide) (plain_cons equal (by decide)
        (value.plain.append (plain_cons closed (by decide) plain_nil))))

theorem InitializerWritten.names_none {s : Statement} {ts : List Token} (h : InitializerWritten s ts) :
    Plain ts := by
  cases h with
  | none closed => exact plain_cons closed (by decide) plain_nil
  | declaration written => exact written.names_none
  | expression value closed => exact value.plain.append (plain_cons closed (by decide) plain_nil)

theorem ClauseWritten.plain {clause : Option Expression} {ts : List Token} (h : ClauseWritten clause ts) :
    Plain ts := by
  cases h with
  | none => exact plain_nil
  | some value => exact value.plain

theorem NamesWritten.plain {names : List String} {ts : List Token} (h : NamesWritten names ts) : Plain ts := by
  induction h with
  | single name => exact plain_cons name (by decide) plain_nil
  | cons name comma _ ih => exact plain_cons name (by decide) (plain_cons comma (by decide) ih)

theorem ParametersWritten.plain {names : List String} {ts : List Token} (h : ParametersWritten names ts) :
    Plain ts := by
  cases h with
  | none => exact plain_nil
  | some list => exact list.plain

/-- The functions of a statement are declared by its tokens, whatever follows them. -/
theorem StatementWritten.functionNames {k : Category} {ends : Bool} {s : Statement} {ts : List Token}
    (h : StatementWritten k ends s ts) (us : List Token) :
    Token.functionNames (ts ++ us) = s.functions ++ Token.functionNames us := by
  -- A token of another kind, and a run of such tokens.
  have skip {t : Token} {kind : TokenKind} (known : t.kind = kind) (other : kind ≠ .fn) (ts : List Token) :
      Token.functionNames (t :: ts) = Token.functionNames ts := functionNames_cons (known ▸ other) ts
  induction h generalizing us with
  | print word value closed =>
      simp only [List.cons_append, List.append_assoc, skip word (by decide), value.plain.functionNames,
        List.nil_append, skip closed (by decide), Statement.functions]
  | giveBack word clause closed =>
      simp only [List.cons_append, List.append_assoc, skip word (by decide), clause.plain.functionNames,
        List.nil_append, skip closed (by decide), Statement.functions]
  | expression value closed =>
      simp only [List.append_assoc, value.plain.functionNames, List.cons_append, List.nil_append,
        skip closed (by decide), Statement.functions]
  | block opened _ closed body =>
      simp only [List.cons_append, List.append_assoc, skip opened (by decide), body, List.nil_append,
        skip closed (by decide), Statement.functions]
  | when word opened test closed _ yes =>
      simp only [List.cons_append, List.append_assoc, skip word (by decide), skip opened (by decide),
        test.plain.functionNames, skip closed (by decide), yes, Statement.functions, List.nil_append]
  | choose word opened test closed _ other _ yes no =>
      simp only [List.cons_append, List.append_assoc, skip word (by decide), skip opened (by decide),
        test.plain.functionNames, skip closed (by decide), yes, skip other (by decide), no, Statement.functions]
  | whileLoop word opened test closed _ body =>
      simp only [List.cons_append, List.append_assoc, skip word (by decide), skip opened (by decide),
        test.plain.functionNames, skip closed (by decide), body, Statement.whileLoop, Statement.functions]
  | forLoop word opened first second middle third closed _ body =>
      simp only [List.cons_append, List.append_assoc, skip word (by decide), skip opened (by decide),
        first.names_none.functionNames, second.plain.functionNames, skip middle (by decide),
        third.plain.functionNames, skip closed (by decide), body, Statement.forLoop, Statement.functions,
        first.functions_eq, List.nil_append]
  | leave word closed | again word closed =>
      simp only [List.cons_append, List.nil_append, skip word (by decide), skip closed (by decide),
        Statement.functions]
  | declare written => rw [written.names_none.functionNames, written.functions_eq, List.nil_append]
  | define word name opened parameters closed begun _ ended body =>
      simp only [List.cons_append, List.append_assoc, functionNames_fn word, skip name (by decide),
        skip opened (by decide), parameters.plain.functionNames, skip closed (by decide),
        skip begun (by decide), body, List.nil_append, skip ended (by decide), Statement.functions]
  | statement _ ih => exact ih us
  | done => rfl
  | next _ _ first rest => rw [List.append_assoc, first, rest, Statement.functions, List.append_assoc]

/-- The functions of a tree are those that its source declares, in the same order. -/
theorem Statement.Writes.functionNames {s : Statement} {source : String} (h : s.Writes source) :
    s.functions = Token.functionNames (Token.scan source) := by
  obtain ⟨ts, e, ends, same, last, written⟩ := h
  rw [same, written.functionNames, functionNames_cons (last ▸ (by decide))]
  exact (List.append_nil _).symm

end StackScript
