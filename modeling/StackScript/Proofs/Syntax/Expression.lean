import StackScript.Compile.Expression
import StackScript.Proofs.Code.Assembly

/-!
# Expressions and how they are written

`Expression` is the syntax tree that the compiler never builds.  `Written p e ts`
says that the tokens `ts` are one way to write `e`, and that the outermost
construct of this way binds with precedence `p`.  An operand has to bind at least
as tightly as its place demands, and parentheses make anything bind tightly, so a
tree has many ways to be written and every one of them shows its grouping.
-/

namespace StackScript

/-- The operators in front of an operand. -/
inductive UnaryOperator where
  | not | negate
deriving DecidableEq, Repr

/-- The operators between two operands, apart from `and` and `or`. -/
inductive BinaryOperator where
  | equal | notEqual | greater | greaterEqual | less | lessEqual
  | add | subtract | multiply | divide
deriving DecidableEq, Repr

/-- Expressions. -/
inductive Expression where
  | null
  | boolean (b : Bool)
  | number (x : Float)
  | string (chars : String)
  | variable (name : String)
  | grouping (inner : Expression)
  | unary (op : UnaryOperator) (operand : Expression)
  | binary (op : BinaryOperator) (left right : Expression)
  | and (left right : Expression)
  | or (left right : Expression)
  | assign (name : String) (value : Expression)
  | call (callee : Expression) (arguments : List Expression)

mutual

/-- The names that an expression reads or assigns. -/
def Expression.names : Expression → List String
  | .null | .boolean _ | .number _ | .string _ => []
  | .variable name => [name]
  | .grouping e | .unary _ e => e.names
  | .binary _ a b | .and a b | .or a b => a.names ++ b.names
  | .assign name e => name :: e.names
  | .call f es => f.names ++ Expression.listNames es

/-- The names in a list of expressions. -/
def Expression.listNames : List Expression → List String
  | [] => []
  | e :: es => e.names ++ Expression.listNames es

end

mutual

/-- Every number of an expression is one that a literal can denote. -/
def Expression.Genuine : Expression → Prop
  | .null | .boolean _ | .string _ | .variable _ => True
  | .number x => ∃ lexeme, Number.ofLiteral? lexeme = some x
  | .grouping e | .unary _ e | .assign _ e => e.Genuine
  | .binary _ a b | .and a b | .or a b => a.Genuine ∧ b.Genuine
  | .call f es => f.Genuine ∧ Expression.GenuineList es

/-- Every number of the expressions is one that a literal can denote. -/
def Expression.GenuineList : List Expression → Prop
  | [] => True
  | e :: es => e.Genuine ∧ Expression.GenuineList es

end

namespace UnaryOperator

/-- The token that writes an operator. -/
def kind : UnaryOperator → TokenKind
  | not => .bang
  | negate => .minus

/-- The operation that an operator stands for. -/
def opcode : UnaryOperator → Opcode
  | not => .not
  | negate => .negate

end UnaryOperator

namespace BinaryOperator

/-- The token that writes an operator. -/
def kind : BinaryOperator → TokenKind
  | equal => .equalEqual
  | notEqual => .bangEqual
  | greater => .greater
  | greaterEqual => .greaterEqual
  | less => .less
  | lessEqual => .lessEqual
  | add => .plus
  | subtract => .minus
  | multiply => .star
  | divide => .slash

/-- How tightly an operator binds. -/
def precedence : BinaryOperator → Precedence
  | equal | notEqual => .equality
  | greater | greaterEqual | less | lessEqual => .comparison
  | add | subtract => .term
  | multiply | divide => .factor

/-- The operations that an operator stands for. -/
def code : BinaryOperator → List Asm
  | equal => [.plain .equal]
  | notEqual => [.plain .equal, .plain .not]
  | greater => [.plain .greater]
  | greaterEqual => [.plain .less, .plain .not]
  | less => [.plain .less]
  | lessEqual => [.plain .greater, .plain .not]
  | add => [.plain .add]
  | subtract => [.plain .subtract]
  | multiply => [.plain .multiply]
  | divide => [.plain .divide]

end BinaryOperator

mutual

/-- The tokens `ts` write the expression `e`, and the outermost construct binds
with precedence `p`. -/
inductive Written : (p : Precedence) → (e : Expression) → (ts : List Token) → Prop where
  | null {t : Token} (word : t.kind = .null) : Written .primary .null [t]
  | true {t : Token} (word : t.kind = .true) : Written .primary (.boolean true) [t]
  | false {t : Token} (word : t.kind = .false) : Written .primary (.boolean false) [t]
  | number {t : Token} {x : Float} (literal : t.kind = .number)
      (value : Number.ofLiteral? t.lexeme = some x) : Written .primary (.number x) [t]
  | string {t : Token} (literal : t.kind = .string) :
      Written .primary (.string (Compiler.unquote t.lexeme)) [t]
  | variable {t : Token} (name : t.kind = .identifier) :
      Written .primary (.variable t.lexeme) [t]
  | grouping {l r : Token} {p : Precedence} {e : Expression} {ts : List Token}
      (opened : l.kind = .leftParen) (inner : Written p e ts)
      (closed : r.kind = .rightParen) :
      Written .primary (.grouping e) (l :: (ts ++ [r]))
  | parentheses {l r : Token} {p : Precedence} {e : Expression} {ts : List Token}
      (opened : l.kind = .leftParen) (inner : Written p e ts)
      (closed : r.kind = .rightParen) :
      Written .primary e (l :: (ts ++ [r]))
  | unary {t : Token} {p : Precedence} {op : UnaryOperator} {e : Expression}
      {ts : List Token} (operator : t.kind = op.kind) (operand : Written p e ts)
      (tight : Precedence.unary.rank ≤ p.rank) :
      Written .unary (.unary op e) (t :: ts)
  /-- Operators of one precedence group to the left. -/
  | binary {t : Token} {p q : Precedence} {op : BinaryOperator} {a b : Expression}
      {ts us : List Token} (left : Written p a ts) (leftTight : op.precedence.rank ≤ p.rank)
      (operator : t.kind = op.kind)
      (right : Written q b us) (rightTight : op.precedence.rank < q.rank) :
      Written op.precedence (.binary op a b) (ts ++ t :: us)
  /-- `and`, `or` and assignments group to the right. -/
  | and {t : Token} {p q : Precedence} {a b : Expression} {ts us : List Token}
      (left : Written p a ts) (leftTight : Precedence.and.rank < p.rank)
      (operator : t.kind = .and)
      (right : Written q b us) (rightTight : Precedence.and.rank ≤ q.rank) :
      Written .and (.and a b) (ts ++ t :: us)
  | or {t : Token} {p q : Precedence} {a b : Expression} {ts us : List Token}
      (left : Written p a ts) (leftTight : Precedence.or.rank < p.rank)
      (operator : t.kind = .or)
      (right : Written q b us) (rightTight : Precedence.or.rank ≤ q.rank) :
      Written .or (.or a b) (ts ++ t :: us)
  | assign {t s : Token} {p : Precedence} {e : Expression} {ts : List Token}
      (name : t.kind = .identifier) (operator : s.kind = .equal) (value : Written p e ts) :
      Written .assignment (.assign t.lexeme e) (t :: s :: ts)
  | callPlain {l r : Token} {p : Precedence} {f : Expression} {ts : List Token}
      (callee : Written p f ts) (tight : Precedence.call.rank ≤ p.rank)
      (opened : l.kind = .leftParen) (closed : r.kind = .rightParen) :
      Written .call (.call f []) (ts ++ [l, r])
  | call {l r : Token} {p : Precedence} {f : Expression} {es : List Expression}
      {ts us : List Token} (callee : Written p f ts)
      (tight : Precedence.call.rank ≤ p.rank) (opened : l.kind = .leftParen)
      (arguments : WrittenList es us) (closed : r.kind = .rightParen) :
      Written .call (.call f es) (ts ++ l :: (us ++ [r]))

/-- The tokens write one or more expressions with commas between them. -/
inductive WrittenList : (es : List Expression) → (ts : List Token) → Prop where
  | single {p : Precedence} {e : Expression} {ts : List Token} (only : Written p e ts) :
      WrittenList [e] ts
  | cons {t : Token} {p : Precedence} {e : Expression} {es : List Expression}
      {ts us : List Token} (first : Written p e ts) (comma : t.kind = .comma)
      (others : WrittenList es us) : WrittenList (e :: es) (ts ++ t :: us)

end

theorem Precedence.rank_inj {p q : Precedence} (h : p.rank = q.rank) : p = q := by
  have same := congrArg Precedence.ofNat h
  simpa [rank, Precedence.ofNat_ctorIdx] using same

theorem BinaryOperator.precedence_kind (op : BinaryOperator) :
    op.kind.precedence = op.precedence := by
  cases op <;> rfl

theorem BinaryOperator.continuation?_kind (op : BinaryOperator) :
    op.kind.continuation? = some .binary := by
  cases op <;> rfl

/-- Nothing that is written binds more loosely than an assignment. -/
theorem Written.rank_pos {p : Precedence} {e : Expression} {ts : List Token}
    (h : Written p e ts) : Precedence.assignment.rank ≤ p.rank := by
  cases h with
  | binary => rename_i op _ _ _ _ _ _ _ _ _; cases op <;> decide
  | _ => decide

mutual

/-- What is written has its numbers from literals. -/
theorem Written.genuine {p : Precedence} {e : Expression} {ts : List Token}
    (h : Written p e ts) : e.Genuine := by
  match h with
  | .null _ | .true _ | .false _ | .string _ | .variable _ => trivial
  | .number _ value => exact ⟨_, value⟩
  | .grouping _ inner _ | .parentheses _ inner _ => exact inner.genuine
  | .unary _ operand _ => exact operand.genuine
  | .binary left _ _ right _ | .and left _ _ right _ | .or left _ _ right _ =>
      exact ⟨left.genuine, right.genuine⟩
  | .assign _ _ value => exact value.genuine
  | .callPlain callee _ _ _ => exact ⟨callee.genuine, trivial⟩
  | .call callee _ _ arguments _ => exact ⟨callee.genuine, arguments.genuine⟩

theorem WrittenList.genuine {es : List Expression} {ts : List Token} (h : WrittenList es ts) :
    Expression.GenuineList es := by
  match h with
  | .single only => exact ⟨only.genuine, trivial⟩
  | .cons first _ others => exact ⟨first.genuine, others.genuine⟩

end

theorem UnaryOperator.opening?_kind (op : UnaryOperator) : op.kind.opening? = some .unary := by
  cases op <;> rfl

/-- Every way of writing has a token to begin an expression in front. -/
theorem Written.head {p : Precedence} {e : Expression} {ts : List Token}
    (h : Written p e ts) : ∃ t rest, ts = t :: rest ∧ t.kind.opening?.isSome := by
  match h with
  | .null word => exact ⟨_, _, rfl, by simp [word, TokenKind.opening?]⟩
  | .true word => exact ⟨_, _, rfl, by simp [word, TokenKind.opening?]⟩
  | .false word => exact ⟨_, _, rfl, by simp [word, TokenKind.opening?]⟩
  | .number literal _ => exact ⟨_, _, rfl, by simp [literal, TokenKind.opening?]⟩
  | .string literal => exact ⟨_, _, rfl, by simp [literal, TokenKind.opening?]⟩
  | .variable name => exact ⟨_, _, rfl, by simp [name, TokenKind.opening?]⟩
  | .grouping opened _ _ => exact ⟨_, _, rfl, by simp [opened, TokenKind.opening?]⟩
  | .parentheses opened _ _ => exact ⟨_, _, rfl, by simp [opened, TokenKind.opening?]⟩
  | .unary operator _ _ =>
      exact ⟨_, _, rfl, by simp [operator, UnaryOperator.opening?_kind]⟩
  | .assign name _ _ => exact ⟨_, _, rfl, by simp [name, TokenKind.opening?]⟩
  | .binary left .. | .and left .. | .or left .. | .callPlain left .. | .call left .. =>
      obtain ⟨t, rest, rfl, opens⟩ := left.head
      exact ⟨t, _, rfl, opens⟩

theorem WrittenList.head {es : List Expression} {ts : List Token} (h : WrittenList es ts) :
    ∃ t rest, ts = t :: rest ∧ t.kind.opening?.isSome := by
  cases h with
  | single only => exact only.head
  | cons first =>
      obtain ⟨t, rest, rfl, opens⟩ := first.head
      exact ⟨t, _, rfl, opens⟩

end StackScript
