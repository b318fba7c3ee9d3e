import StackScript.Proofs.Syntax.Statement
import StackScript.Proofs.Token.Tiling

/-!
# Identifiers have names

The slot that a function has for itself goes by the empty name.  No identifier is empty, so
none refers to this slot.
-/

namespace StackScript

namespace Token

theorem lexeme_ne_of_mem_scan {source : String} {t : Token} (mem : t ∈ scan source)
    (name : t.kind = .identifier) : t.lexeme ≠ "" := by
  obtain ⟨before, slice, rest, -, -, renders⟩ := exists_cuts mem
  cases renders with
  | lexeme front lexeme =>
      intro none
      rw [lexeme] at none
      exact front.taken_ne_nil (by simpa using congrArg String.toList none)
  | last kind | unclosed _ kind | stray _ kind =>
      rw [kind] at name
      cases name

/-- Identifiers among the tokens are not empty. -/
def Named (ts : List Token) : Prop := ∀ t ∈ ts, t.kind = .identifier → t.lexeme ≠ ""

section

variable {t : Token} {ts us : List Token}

@[simp] theorem named_cons : Named (t :: ts) ↔
    (t.kind = .identifier → t.lexeme ≠ "") ∧ Named ts := List.forall_mem_cons

@[simp] theorem named_append : Named (ts ++ us) ↔ Named ts ∧ Named us := List.forall_mem_append

theorem Named.left (h : Named (ts ++ us)) : Named ts := (named_append.mp h).1

theorem Named.right (h : Named (ts ++ us)) : Named us := (named_append.mp h).2

theorem Named.head (h : Named (t :: ts)) (name : t.kind = .identifier) : t.lexeme ≠ "" :=
  (named_cons.mp h).1 name

theorem Named.tail (h : Named (t :: ts)) : Named ts := (named_cons.mp h).2

end

end Token

open Token

/-- The identifiers in an expression are not empty. -/
def Expression.Named (e : Expression) : Prop := ∀ name ∈ e.names, name ≠ ""

mutual

/-- What is written with proper identifiers has such names. -/
theorem Written.named {p : Precedence} {e : Expression} {ts : List Token} (h : Written p e ts)
    (tokens : Token.Named ts) : e.Named := by
  match h with
  | .null _ | .true _ | .false _ | .string _ | .number _ _ => exact fun name mem => by cases mem
  | .variable name => exact List.forall_mem_singleton.mpr (tokens.head name)
  | .grouping _ inner _ | .parentheses _ inner _ => exact inner.named tokens.tail.left
  | .unary _ operand _ => exact operand.named tokens.tail
  | .binary left _ _ right _ | .and left _ _ right _ | .or left _ _ right _ =>
      exact List.forall_mem_append.mpr ⟨left.named tokens.left, right.named tokens.right.tail⟩
  | .assign name _ value =>
      exact List.forall_mem_cons.mpr ⟨tokens.head name, value.named tokens.tail.tail⟩
  | .callPlain callee _ _ _ =>
      exact List.forall_mem_append.mpr ⟨callee.named tokens.left, fun name mem => by cases mem⟩
  | .call callee _ _ arguments _ =>
      exact List.forall_mem_append.mpr ⟨callee.named tokens.left,
        arguments.named tokens.right.tail.left⟩

theorem WrittenList.named {es : List Expression} {ts : List Token} (h : WrittenList es ts)
    (tokens : Token.Named ts) : ∀ name ∈ Expression.listNames es, name ≠ "" := by
  match h with
  | .single only => exact List.forall_mem_append.mpr ⟨only.named tokens, fun name mem => by cases mem⟩
  | .cons first _ others =>
      exact List.forall_mem_append.mpr ⟨first.named tokens.left, others.named tokens.right.tail⟩

end

/-- The identifiers in the expressions of a statement are not empty, those in functions declared
in it included. -/
def Statement.Named : Statement → Prop
  | .done | .leave | .again => True
  | .next a b => a.Named ∧ b.Named
  | .print e | .expression e => e.Named
  | .declare _ _ init => ∀ e ∈ init, e.Named
  | .block s => s.Named
  | .giveBack value => ∀ e ∈ value, e.Named
  | .define _ _ s => s.Named
  | .choose c s t => c.Named ∧ s.Named ∧ t.Named
  | .loop test step s => (∀ e ∈ test, e.Named) ∧ (∀ e ∈ step, e.Named) ∧ s.Named

theorem ClauseWritten.named {clause : Option Expression} {ts : List Token}
    (h : ClauseWritten clause ts) (tokens : Token.Named ts) : ∀ e ∈ clause, e.Named := by
  cases h with
  | none => simp
  | some value => simpa using value.named tokens

theorem DeclarationWritten.named {s : Statement} {ts : List Token} (h : DeclarationWritten s ts)
    (tokens : Token.Named ts) : s.Named := by
  cases h with
  | plain => simp [Statement.Named]
  | initialized _ _ _ value =>
      simpa [Statement.Named] using value.named tokens.tail.tail.tail.left

theorem InitializerWritten.named {s : Statement} {ts : List Token} (h : InitializerWritten s ts)
    (tokens : Token.Named ts) : s.Named := by
  cases h with
  | none => trivial
  | declaration written => exact written.named tokens
  | expression value => exact value.named tokens.left

theorem StatementWritten.named {k : Category} {ends : Bool} {s : Statement} {ts : List Token}
    (h : StatementWritten k ends s ts) (tokens : Token.Named ts) : s.Named := by
  induction h with
  | print _ value => exact value.named tokens.tail.left
  | expression value => exact value.named tokens.left
  | block _ _ _ body => exact body tokens.tail.left
  | when _ _ test _ _ yes =>
      exact ⟨test.named tokens.tail.tail.left, yes tokens.tail.tail.right.tail, trivial⟩
  | choose _ _ test _ _ _ _ yes no =>
      have branches := tokens.tail.tail.right.tail
      exact ⟨test.named tokens.tail.tail.left, yes branches.left, no branches.right.tail⟩
  | whileLoop _ _ test _ _ body =>
      exact ⟨by simpa using test.named tokens.tail.tail.left, by simp,
        body tokens.tail.tail.right.tail⟩
  | forLoop _ _ first second _ third _ _ body =>
      have clauses := tokens.tail.tail.right
      have rest := clauses.right.tail
      exact ⟨first.named tokens.tail.tail.left, second.named clauses.left, third.named rest.left,
        body rest.right.tail⟩
  | leave | again | done => trivial
  | giveBack _ clause => exact clause.named tokens.tail.left
  | declare written => exact written.named tokens
  | define _ _ _ _ _ _ _ _ body => exact body tokens.tail.tail.tail.right.tail.tail.left
  | statement _ ih => exact ih tokens
  | next _ _ first rest => exact ⟨first tokens.left, rest tokens.right⟩

end StackScript
