import StackScript.Proofs.Syntax.Statement
import StackScript.Proofs.Token.Scan

/-!
# The grammar

`Derives` is the grammar of the language over the kinds of tokens, with one
constructor for each rule.  It is ambiguous at an `else` that could belong to two
conditionals, and says nothing about trees; `derives_iff_written` shows that it
derives just the token lists that are written from some tree.
-/

namespace StackScript

/-- The phrases of the grammar. -/
inductive Nonterminal where
  | program | declarations | declaration | variableDeclaration | statement
  | parameters | names | initializer | clause | arguments | list
  /-- Expressions that bind at least as tightly as given. -/
  | operand (level : Precedence)
deriving DecidableEq

/-- Expressions of any kind. -/
abbrev Nonterminal.expression : Nonterminal := .operand .assignment

/-- The kinds of tokens that are operands by themselves. -/
def TokenKind.atoms : List TokenKind :=
  [.null, .true, .false, .number, .string, .identifier]

open TokenKind Nonterminal in
/-- The rules of the grammar. -/
inductive Derives : Nonterminal → List TokenKind → Prop where
  | program {ks : List TokenKind} (body : Derives declarations ks) :
      Derives program (ks ++ [eof])
  | none : Derives declarations []
  | more {ks ls : List TokenKind} (first : Derives declaration ks)
      (rest : Derives declarations ls) : Derives declarations (ks ++ ls)
  -- Declarations
  | function {ks ls : List TokenKind} (names : Derives parameters ks)
      (body : Derives declarations ls) :
      Derives declaration
        (fn :: identifier :: leftParen :: (ks ++ rightParen :: leftBrace :: (ls ++ [rightBrace])))
  | binding {ks : List TokenKind} (written : Derives variableDeclaration ks) :
      Derives declaration ks
  | statement {ks : List TokenKind} (written : Derives statement ks) : Derives declaration ks
  | plain {word : TokenKind} (known : word ∈ [var, const]) :
      Derives variableDeclaration [word, identifier, semicolon]
  | initialized {word : TokenKind} {ks : List TokenKind} (known : word ∈ [var, const])
      (value : Derives expression ks) :
      Derives variableDeclaration (word :: identifier :: equal :: (ks ++ [semicolon]))
  | noParameters : Derives parameters []
  | someParameters {ks : List TokenKind} (list : Derives names ks) : Derives parameters ks
  | oneName : Derives names [identifier]
  | moreNames {ks : List TokenKind} (others : Derives names ks) :
      Derives names (identifier :: comma :: ks)
  -- Statements
  | print {ks : List TokenKind} (value : Derives expression ks) :
      Derives statement (print :: (ks ++ [semicolon]))
  | expression {ks : List TokenKind} (value : Derives expression ks) :
      Derives statement (ks ++ [semicolon])
  | block {ks : List TokenKind} (body : Derives declarations ks) :
      Derives statement (leftBrace :: (ks ++ [rightBrace]))
  | when {ks ls : List TokenKind} (test : Derives expression ks) (yes : Derives statement ls) :
      Derives statement (.if :: leftParen :: (ks ++ rightParen :: ls))
  | choose {ks ls ms : List TokenKind} (test : Derives expression ks)
      (yes : Derives statement ls) (no : Derives statement ms) :
      Derives statement (.if :: leftParen :: (ks ++ rightParen :: (ls ++ .else :: ms)))
  | whileLoop {ks ls : List TokenKind} (test : Derives expression ks)
      (body : Derives statement ls) :
      Derives statement (.while :: leftParen :: (ks ++ rightParen :: ls))
  | forLoop {is ks ls ms : List TokenKind} (first : Derives initializer is)
      (test : Derives clause ks) (step : Derives clause ls) (body : Derives statement ms) :
      Derives statement
        (.for :: leftParen :: (is ++ (ks ++ semicolon :: (ls ++ rightParen :: ms))))
  | leave : Derives statement [.break, semicolon]
  | again : Derives statement [.continue, semicolon]
  | giveBack {ks : List TokenKind} (value : Derives clause ks) :
      Derives statement (.return :: (ks ++ [semicolon]))
  | noInitializer : Derives initializer [semicolon]
  | declared {ks : List TokenKind} (written : Derives variableDeclaration ks) :
      Derives initializer ks
  | evaluated {ks : List TokenKind} (value : Derives expression ks) :
      Derives initializer (ks ++ [semicolon])
  | noClause : Derives clause []
  | someClause {ks : List TokenKind} (value : Derives expression ks) : Derives clause ks
  -- Expressions
  | assign {ks : List TokenKind} (value : Derives expression ks) :
      Derives expression (identifier :: equal :: ks)
  | tighter {level : Precedence} {ks : List TokenKind}
      (tight : Derives (operand level.tighter) ks) : Derives (operand level) ks
  | or {ks ls : List TokenKind} (left : Derives (operand .and) ks)
      (right : Derives (operand .or) ls) : Derives (operand .or) (ks ++ .or :: ls)
  | and {ks ls : List TokenKind} (left : Derives (operand .equality) ks)
      (right : Derives (operand .and) ls) : Derives (operand .and) (ks ++ .and :: ls)
  | binary {op : BinaryOperator} {ks ls : List TokenKind}
      (left : Derives (operand op.precedence) ks)
      (right : Derives (operand op.precedence.tighter) ls) :
      Derives (operand op.precedence) (ks ++ op.kind :: ls)
  | unary {op : UnaryOperator} {ks : List TokenKind} (inner : Derives (operand .unary) ks) :
      Derives (operand .unary) (op.kind :: ks)
  | call {ks ls : List TokenKind} (callee : Derives (operand .call) ks)
      (given : Derives arguments ls) :
      Derives (operand .call) (ks ++ leftParen :: (ls ++ [rightParen]))
  | atom {k : TokenKind} (known : k ∈ atoms) : Derives (operand .primary) [k]
  | grouping {ks : List TokenKind} (inner : Derives expression ks) :
      Derives (operand .primary) (leftParen :: (ks ++ [rightParen]))
  | noArguments : Derives arguments []
  | someArguments {ks : List TokenKind} (given : Derives list ks) : Derives arguments ks
  | oneArgument {ks : List TokenKind} (only : Derives expression ks) : Derives list ks
  | moreArguments {ks ls : List TokenKind} (first : Derives expression ks)
      (others : Derives list ls) : Derives list (ks ++ comma :: ls)

/-! ## What is written is derived -/

/-- An expression that binds tightly may stand where a loose one may. -/
theorem Derives.looser {p q : Precedence} {ks : List TokenKind} (h : Derives (.operand q) ks)
    (le : p.rank ≤ q.rank) : Derives (.operand p) ks := by
  obtain ⟨gap, same⟩ := Nat.le.dest le
  induction gap generalizing p with
  | zero => rwa [Precedence.rank_inj same]
  | succ gap ih =>
      have next : p.tighter.rank = p.rank + 1 := by
        have bound : q.rank ≤ Precedence.primary.rank := by cases q <;> decide
        cases p <;> first | rfl | omega
      exact .tighter (ih (by omega) (by omega))

mutual

theorem Written.derives {p : Precedence} {e : Expression} {ts : List Token}
    (h : Written p e ts) : Derives (.operand p) (ts.map Token.kind) := by
  match h with
  | .null word | .true word | .false word | .number word _ | .string word | .variable word =>
      simpa [word] using Derives.atom (by decide)
  | .grouping opened inner closed | .parentheses opened inner closed =>
      simpa [opened, closed] using Derives.grouping (inner.derives.looser inner.rank_pos)
  | .unary operator operand tight =>
      simpa [operator] using Derives.unary (operand.derives.looser tight)
  | .binary left leftTight operator right rightTight =>
      rename_i op _ _ _ _
      have next : op.precedence.tighter.rank = op.precedence.rank + 1 := by cases op <;> rfl
      simpa [operator] using Derives.binary (left.derives.looser leftTight)
        (right.derives.looser (by omega))
  | .and left leftTight operator right rightTight =>
      simpa [operator] using Derives.and (left.derives.looser leftTight)
        (right.derives.looser rightTight)
  | .or left leftTight operator right rightTight =>
      simpa [operator] using Derives.or (left.derives.looser leftTight)
        (right.derives.looser rightTight)
  | .assign name operator value =>
      simpa [name, operator] using Derives.assign (value.derives.looser value.rank_pos)
  | .callPlain callee tight opened closed =>
      simpa [opened, closed] using Derives.call (callee.derives.looser tight) .noArguments
  | .call callee tight opened arguments closed =>
      simpa [opened, closed] using
        Derives.call (callee.derives.looser tight) (.someArguments arguments.derives)

theorem WrittenList.derives {es : List Expression} {ts : List Token} (h : WrittenList es ts) :
    Derives .list (ts.map Token.kind) := by
  match h with
  | .single only => exact .oneArgument (only.derives.looser only.rank_pos)
  | .cons first comma others =>
      simpa [comma] using Derives.moreArguments (first.derives.looser first.rank_pos)
        others.derives

end

theorem Written.derives_expression {p : Precedence} {e : Expression} {ts : List Token}
    (h : Written p e ts) : Derives .expression (ts.map Token.kind) :=
  h.derives.looser h.rank_pos

theorem DeclarationWritten.derives {s : Statement} {ts : List Token}
    (h : DeclarationWritten s ts) : Derives .variableDeclaration (ts.map Token.kind) := by
  have known (assignable : Bool) :
      (if assignable then .var else .const) ∈ [TokenKind.var, TokenKind.const] := by
    cases assignable <;> decide
  cases h with
  | plain word name closed => simpa [word, name, closed] using Derives.plain (known _)
  | initialized word name equal value closed =>
      simpa [word, name, equal, closed] using
        Derives.initialized (known _) value.derives_expression

theorem InitializerWritten.derives {s : Statement} {ts : List Token}
    (h : InitializerWritten s ts) : Derives .initializer (ts.map Token.kind) := by
  cases h with
  | none closed => simpa [closed] using Derives.noInitializer
  | declaration written => exact .declared written.derives
  | expression value closed =>
      simpa [closed] using Derives.evaluated value.derives_expression

theorem ClauseWritten.derives {clause : Option Expression} {ts : List Token}
    (h : ClauseWritten clause ts) : Derives .clause (ts.map Token.kind) := by
  cases h with
  | none => exact .noClause
  | some value => exact .someClause value.derives_expression

theorem NamesWritten.derives {names : List String} {ts : List Token}
    (h : NamesWritten names ts) : Derives .names (ts.map Token.kind) := by
  induction h with
  | single name => simpa [name] using Derives.oneName
  | cons name comma _ ih => simpa [name, comma] using Derives.moreNames ih

theorem ParametersWritten.derives {names : List String} {ts : List Token}
    (h : ParametersWritten names ts) : Derives .parameters (ts.map Token.kind) := by
  cases h with
  | none => exact .noParameters
  | some list => exact .someParameters list.derives

/-- The phrase that may stand at a place. -/
@[simp] def Category.nonterminal : Category → Nonterminal
  | .statement => .statement
  | .declaration => .declaration
  | .sequence => .declarations

theorem StatementWritten.derives {k : Category} {ends : Bool} {s : Statement} {ts : List Token}
    (h : StatementWritten k ends s ts) : Derives k.nonterminal (ts.map Token.kind) := by
  induction h with
  | print word value closed =>
      simpa [word, closed] using Derives.print value.derives_expression
  | expression value closed => simpa [closed] using Derives.expression value.derives_expression
  | block opened _ closed ih => simpa [opened, closed] using Derives.block ih
  | when word opened test closed _ ih =>
      simpa [word, opened, closed] using Derives.when test.derives_expression ih
  | choose word opened test closed _ other _ yes no =>
      simpa [word, opened, closed, other] using Derives.choose test.derives_expression yes no
  | whileLoop word opened test closed _ ih =>
      simpa [word, opened, closed] using Derives.whileLoop test.derives_expression ih
  | forLoop word opened first second middle third closed _ ih =>
      simpa [word, opened, middle, closed] using
        Derives.forLoop first.derives second.derives third.derives ih
  | leave word closed => simpa [word, closed] using Derives.leave
  | again word closed => simpa [word, closed] using Derives.again
  | giveBack word clause closed => simpa [word, closed] using Derives.giveBack clause.derives
  | declare written => exact .binding written.derives
  | define word name opened parameters closed begun _ ended ih =>
      simpa [word, name, opened, closed, begun, ended] using
        Derives.function parameters.derives ih
  | statement _ ih => exact .statement ih
  | done => exact .none
  | next _ _ first rest => simpa using Derives.more first rest

/-! ## What is derived is written -/

/-- An `else` behind an `if` without one belongs to the innermost of them. -/
theorem StatementWritten.attach {k : Category} {ends : Bool} {s : Statement} {us : List Token}
    (h : StatementWritten k ends s us) (statement : k = .statement) (dangling : ends = true)
    {o : Token} (other : o.kind = .else) {ends' : Bool} {t : Statement} {vs : List Token}
    (no : StatementWritten .statement ends' t vs) :
    ∃ ends'' s', StatementWritten .statement ends'' s' (us ++ o :: vs) := by
  induction h with
  | @when _ _ _ _ ends _ _ _ _ word opened test closed yes ih =>
      cases ends with
      | false =>
          exact ⟨_, _, by simpa using StatementWritten.choose word opened test closed yes other no⟩
      | true =>
          obtain ⟨_, _, yes⟩ := ih rfl rfl
          exact ⟨_, _, by simpa using StatementWritten.when word opened test closed yes⟩
  | choose word opened test closed yes other' _ _ ih =>
      obtain ⟨_, _, no⟩ := ih rfl dangling
      exact ⟨_, _, by simpa using StatementWritten.choose word opened test closed yes other' no⟩
  | whileLoop word opened test closed _ ih =>
      obtain ⟨_, _, body⟩ := ih rfl dangling
      exact ⟨_, _, by simpa using StatementWritten.whileLoop word opened test closed body⟩
  | forLoop word opened first second middle third closed _ ih =>
      obtain ⟨_, _, body⟩ := ih rfl dangling
      exact ⟨_, _, by
        simpa using StatementWritten.forLoop word opened first second middle third closed body⟩
  | declare | define | statement | done | next => cases statement
  | print | expression | block | leave | again | giveBack => cases dangling

/-- Every number among the tokens denotes a value. -/
def Legible (ts : List Token) : Prop := ∀ t ∈ ts, t.Denotes

@[simp] theorem legible_cons {t : Token} {ts : List Token} :
    Legible (t :: ts) ↔ t.Denotes ∧ Legible ts := List.forall_mem_cons

@[simp] theorem legible_append {ts us : List Token} :
    Legible (ts ++ us) ↔ Legible ts ∧ Legible us := List.forall_mem_append

/-- The tokens are written from some tree of the phrase. -/
def Nonterminal.HasTree (ts : List Token) : Nonterminal → Prop
  | program => ∃ us e, ts = us ++ [e] ∧ e.kind = .eof ∧
      ∃ ends s, StatementWritten .sequence ends s us
  | declarations => ∃ ends s, StatementWritten .sequence ends s ts
  | declaration => ∃ ends s, StatementWritten .declaration ends s ts
  | variableDeclaration => ∃ s, DeclarationWritten s ts
  | statement => ∃ ends s, StatementWritten .statement ends s ts
  | parameters => ∃ names, ParametersWritten names ts
  | names => ∃ names, NamesWritten names ts
  | initializer => ∃ s, InitializerWritten s ts
  | clause => ∃ e, ClauseWritten e ts
  | arguments => ts = [] ∨ ∃ es, WrittenList es ts
  | list => ∃ es, WrittenList es ts
  | operand level => ∃ p e, level.rank ≤ p.rank ∧ Written p e ts

theorem hasTree_of_atom {t : Token} (known : t.kind ∈ TokenKind.atoms)
    (legible : t.Denotes) : ∃ p e, Precedence.primary.rank ≤ p.rank ∧ Written p e [t] := by
  simp only [TokenKind.atoms, List.mem_cons, List.not_mem_nil, or_false] at known
  rcases known with word | word | word | literal | literal | name
  · exact ⟨_, _, Nat.le_refl _, .null word⟩
  · exact ⟨_, _, Nat.le_refl _, .true word⟩
  · exact ⟨_, _, Nat.le_refl _, .false word⟩
  · obtain ⟨x, value⟩ := Option.isSome_iff_exists.mp (legible literal)
    exact ⟨_, _, Nat.le_refl _, .number literal value⟩
  · exact ⟨_, _, Nat.le_refl _, .string literal⟩
  · exact ⟨_, _, Nat.le_refl _, .variable name⟩

theorem word_of_mem {k : Token} (known : k.kind ∈ [TokenKind.var, TokenKind.const]) :
    ∃ assignable : Bool, k.kind = if assignable then .var else .const := by
  simp only [List.mem_cons, List.not_mem_nil, or_false] at known
  rcases known with word | word
  · exact ⟨true, word⟩
  · exact ⟨false, word⟩

theorem Precedence.rank_lt_of_tighter {p q : Precedence} (h : p.tighter.rank ≤ q.rank) :
    p.rank ≤ q.rank ∧ (p ≠ .primary → p.rank < q.rank) := by
  have next : p ≠ .primary → p.tighter.rank = p.rank + 1 := by
    intro other
    cases p <;> first | rfl | exact absurd rfl other
  by_cases last : p = .primary
  · subst last
    exact ⟨h, fun other => absurd rfl other⟩
  · rw [next last] at h
    exact ⟨by omega, fun _ => by omega⟩

open Nonterminal in
/-- The grammar and the trees agree on what can be written. -/
theorem Derives.hasTree {symbol : Nonterminal} {ks : List TokenKind} (h : Derives symbol ks) :
    ∀ {ts : List Token}, ts.map Token.kind = ks → Legible ts → symbol.HasTree ts := by
  induction h <;> intro ts same legible <;>
    try simp only [List.map_eq_append_iff, List.map_eq_cons_iff, List.map_eq_nil_iff] at same
  case program ih =>
    obtain ⟨us, _, rfl, same, e, _, rfl, kind, rfl⟩ := same
    exact ⟨us, e, rfl, kind, ih same (legible_append.mp legible).1⟩
  case none =>
    subst same
    exact ⟨_, _, .done⟩
  case more first rest =>
    obtain ⟨us, vs, rfl, sameUs, sameVs⟩ := same
    obtain ⟨fineUs, fineVs⟩ := legible_append.mp legible
    obtain ⟨_, _, first⟩ := first sameUs fineUs
    obtain ⟨_, _, rest⟩ := rest sameVs fineVs
    exact ⟨_, _, .next first rest⟩
  case function names body =>
    obtain ⟨k, _, rfl, word, n, _, rfl, name, l, _, rfl, opened, ps, _, rfl, samePs, r, _, rfl,
      closed, b, _, rfl, begun, us, _, rfl, sameUs, d, _, rfl, ended, rfl⟩ := same
    simp only [legible_cons, legible_append] at legible
    obtain ⟨-, -, -, finePs, -, -, fineUs, -⟩ := legible
    obtain ⟨_, names⟩ := names samePs finePs
    obtain ⟨_, _, body⟩ := body sameUs fineUs
    exact ⟨_, _, .define word name opened names closed begun body ended⟩
  case binding ih =>
    obtain ⟨_, written⟩ := ih same legible
    exact ⟨_, _, .declare written⟩
  case statement ih =>
    obtain ⟨_, _, written⟩ := ih same legible
    exact ⟨_, _, .statement written⟩
  case plain known =>
    obtain ⟨k, _, rfl, rfl, n, _, rfl, name, m, _, rfl, closed, rfl⟩ := same
    obtain ⟨_, word⟩ := word_of_mem known
    exact ⟨_, .plain word name closed⟩
  case initialized known _ ih =>
    obtain ⟨k, _, rfl, rfl, n, _, rfl, name, q, _, rfl, equal, us, _, rfl, same, m, _, rfl,
      closed, rfl⟩ := same
    simp only [legible_cons, legible_append] at legible
    obtain ⟨-, -, -, fine, -⟩ := legible
    obtain ⟨_, word⟩ := word_of_mem known
    obtain ⟨_, _, -, value⟩ := ih same fine
    exact ⟨_, .initialized word name equal value closed⟩
  case noParameters =>
    subst same
    exact ⟨_, .none⟩
  case someParameters ih =>
    obtain ⟨_, list⟩ := ih same legible
    exact ⟨_, .some list⟩
  case oneName =>
    obtain ⟨n, _, rfl, name, rfl⟩ := same
    exact ⟨_, .single name⟩
  case moreNames ih =>
    obtain ⟨n, _, rfl, name, m, us, rfl, comma, same⟩ := same
    obtain ⟨_, others⟩ := ih same (legible_cons.mp (legible_cons.mp legible).2).2
    exact ⟨_, .cons name comma others⟩
  case print ih =>
    obtain ⟨k, _, rfl, word, us, _, rfl, same, m, _, rfl, closed, rfl⟩ := same
    simp only [legible_cons, legible_append] at legible
    obtain ⟨_, _, -, value⟩ := ih same legible.2.1
    exact ⟨_, _, .print word value closed⟩
  case expression ih =>
    obtain ⟨us, _, rfl, same, m, _, rfl, closed, rfl⟩ := same
    obtain ⟨_, _, -, value⟩ := ih same (legible_append.mp legible).1
    exact ⟨_, _, .expression value closed⟩
  case block ih =>
    obtain ⟨l, _, rfl, opened, us, _, rfl, same, r, _, rfl, closed, rfl⟩ := same
    simp only [legible_cons, legible_append] at legible
    obtain ⟨_, _, body⟩ := ih same legible.2.1
    exact ⟨_, _, .block opened body closed⟩
  case when test yes =>
    obtain ⟨k, _, rfl, word, l, _, rfl, opened, us, _, rfl, sameUs, r, vs, rfl, closed,
      sameVs⟩ := same
    simp only [legible_cons, legible_append] at legible
    obtain ⟨-, -, fineUs, -, fineVs⟩ := legible
    obtain ⟨_, _, -, test⟩ := test sameUs fineUs
    obtain ⟨_, _, yes⟩ := yes sameVs fineVs
    exact ⟨_, _, .when word opened test closed yes⟩
  -- a branch that ends with an open `if` takes the `else` for itself
  case choose test yes no =>
    obtain ⟨k, _, rfl, word, l, _, rfl, opened, us, _, rfl, sameUs, r, _, rfl, closed, vs, _, rfl,
      sameVs, o, ws, rfl, other, sameWs⟩ := same
    simp only [legible_cons, legible_append] at legible
    obtain ⟨-, -, fineUs, -, fineVs, -, fineWs⟩ := legible
    obtain ⟨_, _, -, test⟩ := test sameUs fineUs
    obtain ⟨ends, _, yes⟩ := yes sameVs fineVs
    obtain ⟨_, _, no⟩ := no sameWs fineWs
    cases ends with
    | false => exact ⟨_, _, .choose word opened test closed yes other no⟩
    | true =>
        obtain ⟨_, _, both⟩ := yes.attach rfl rfl other no
        exact ⟨_, _, .when word opened test closed both⟩
  case whileLoop test body =>
    obtain ⟨k, _, rfl, word, l, _, rfl, opened, us, _, rfl, sameUs, r, vs, rfl, closed,
      sameVs⟩ := same
    simp only [legible_cons, legible_append] at legible
    obtain ⟨-, -, fineUs, -, fineVs⟩ := legible
    obtain ⟨_, _, -, test⟩ := test sameUs fineUs
    obtain ⟨_, _, body⟩ := body sameVs fineVs
    exact ⟨_, _, .whileLoop word opened test closed body⟩
  case forLoop first test step body =>
    obtain ⟨k, _, rfl, word, l, _, rfl, opened, is, _, rfl, sameIs, us, _, rfl, sameUs, m, _, rfl,
      middle, vs, _, rfl, sameVs, r, ws, rfl, closed, sameWs⟩ := same
    simp only [legible_cons, legible_append] at legible
    obtain ⟨-, -, fineIs, fineUs, -, fineVs, -, fineWs⟩ := legible
    obtain ⟨_, first⟩ := first sameIs fineIs
    obtain ⟨_, test⟩ := test sameUs fineUs
    obtain ⟨_, step⟩ := step sameVs fineVs
    obtain ⟨_, _, body⟩ := body sameWs fineWs
    exact ⟨_, _, .forLoop word opened first test middle step closed body⟩
  case leave =>
    obtain ⟨k, _, rfl, word, m, _, rfl, closed, rfl⟩ := same
    exact ⟨_, _, .leave word closed⟩
  case again =>
    obtain ⟨k, _, rfl, word, m, _, rfl, closed, rfl⟩ := same
    exact ⟨_, _, .again word closed⟩
  case giveBack ih =>
    obtain ⟨k, _, rfl, word, us, _, rfl, same, m, _, rfl, closed, rfl⟩ := same
    simp only [legible_cons, legible_append] at legible
    obtain ⟨_, value⟩ := ih same legible.2.1
    exact ⟨_, _, .giveBack word value closed⟩
  case noInitializer =>
    obtain ⟨m, _, rfl, closed, rfl⟩ := same
    exact ⟨_, .none closed⟩
  case declared ih =>
    obtain ⟨_, written⟩ := ih same legible
    exact ⟨_, .declaration written⟩
  case evaluated ih =>
    obtain ⟨us, _, rfl, same, m, _, rfl, closed, rfl⟩ := same
    obtain ⟨_, _, -, value⟩ := ih same (legible_append.mp legible).1
    exact ⟨_, .expression value closed⟩
  case noClause =>
    subst same
    exact ⟨_, .none⟩
  case someClause ih =>
    obtain ⟨_, _, -, value⟩ := ih same legible
    exact ⟨_, .some value⟩
  case assign ih =>
    obtain ⟨t, _, rfl, name, q, us, rfl, operator, same⟩ := same
    simp only [legible_cons] at legible
    obtain ⟨_, _, -, value⟩ := ih same legible.2.2
    exact ⟨_, _, Nat.le_refl _, .assign name operator value⟩
  case tighter ih =>
    obtain ⟨_, _, tight, written⟩ := ih same legible
    exact ⟨_, _, (Precedence.rank_lt_of_tighter tight).1, written⟩
  case or left right =>
    obtain ⟨us, _, rfl, sameUs, o, vs, rfl, operator, sameVs⟩ := same
    simp only [legible_cons, legible_append] at legible
    obtain ⟨_, _, leftTight, left⟩ := left sameUs legible.1
    obtain ⟨_, _, rightTight, right⟩ := right sameVs legible.2.2
    exact ⟨_, _, Nat.le_refl _, .or left leftTight operator right rightTight⟩
  case and left right =>
    obtain ⟨us, _, rfl, sameUs, o, vs, rfl, operator, sameVs⟩ := same
    simp only [legible_cons, legible_append] at legible
    obtain ⟨_, _, leftTight, left⟩ := left sameUs legible.1
    obtain ⟨_, _, rightTight, right⟩ := right sameVs legible.2.2
    exact ⟨_, _, Nat.le_refl _, .and left leftTight operator right rightTight⟩
  case binary op _ _ _ _ left right =>
    obtain ⟨us, _, rfl, sameUs, o, vs, rfl, operator, sameVs⟩ := same
    simp only [legible_cons, legible_append] at legible
    obtain ⟨_, _, leftTight, left⟩ := left sameUs legible.1
    obtain ⟨_, _, rightTight, right⟩ := right sameVs legible.2.2
    have rightTight := (Precedence.rank_lt_of_tighter rightTight).2 (by cases op <;> decide)
    exact ⟨_, _, Nat.le_refl _, .binary left leftTight operator right rightTight⟩
  case unary ih =>
    obtain ⟨o, us, rfl, operator, same⟩ := same
    obtain ⟨_, _, tight, operand⟩ := ih same (legible_cons.mp legible).2
    exact ⟨_, _, Nat.le_refl _, .unary operator operand tight⟩
  case call callee given =>
    obtain ⟨us, _, rfl, sameUs, l, _, rfl, opened, vs, _, rfl, sameVs, r, _, rfl, closed, rfl⟩ := same
    simp only [legible_cons, legible_append] at legible
    obtain ⟨fineUs, -, fineVs, -⟩ := legible
    obtain ⟨_, _, tight, callee⟩ := callee sameUs fineUs
    rcases given sameVs fineVs with rfl | ⟨_, given⟩
    · exact ⟨_, _, Nat.le_refl _, .callPlain callee tight opened closed⟩
    · exact ⟨_, _, Nat.le_refl _, .call callee tight opened given closed⟩
  case atom known =>
    obtain ⟨t, _, rfl, rfl, rfl⟩ := same
    exact hasTree_of_atom known (legible_cons.mp legible).1
  case grouping ih =>
    obtain ⟨l, _, rfl, opened, us, _, rfl, same, r, _, rfl, closed, rfl⟩ := same
    simp only [legible_cons, legible_append] at legible
    obtain ⟨_, _, -, inner⟩ := ih same legible.2.1
    exact ⟨_, _, Nat.le_refl _, .grouping opened inner closed⟩
  case noArguments => exact .inl same
  case someArguments ih => exact .inr (ih same legible)
  case oneArgument ih =>
    obtain ⟨_, _, -, only⟩ := ih same legible
    exact ⟨_, .single only⟩
  case moreArguments first others =>
    obtain ⟨us, _, rfl, sameUs, m, vs, rfl, comma, sameVs⟩ := same
    simp only [legible_cons, legible_append] at legible
    obtain ⟨_, _, -, first⟩ := first sameUs legible.1
    obtain ⟨_, others⟩ := others sameVs legible.2.2
    exact ⟨_, .cons first comma others⟩

end StackScript
