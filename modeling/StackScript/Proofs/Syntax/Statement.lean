import StackScript.Compile.Program
import StackScript.Proofs.Syntax.Expression

/-!
# Statements and how they are written

`Statement` is the tree of a statement; a whole program is a sequence of them.  There
is one loop with optional clauses: `while` is the loop without a step, and `for` is a
block that holds its initializer and a loop.  `StatementWritten` says which tokens write a statement.
An `if` without `else` may not be followed by the `else` of another, so the
relation keeps track of the statements that end openly.
-/

namespace StackScript

/-- Statements and declarations. -/
inductive Statement where
  | done
  | next (first rest : Statement)
  | print (e : Expression)
  | expression (e : Expression)
  | declare (assignable : Bool) (name : String) (init : Option Expression)
  | block (body : Statement)
  | choose (test : Expression) (yes no : Statement)
  | loop (test step : Option Expression) (body : Statement)
  | leave
  | again
  | giveBack (value : Option Expression)
  | define (name : String) (parameters : List String) (body : Statement)

namespace Statement

/-- A loop with a condition. -/
def whileLoop (test : Expression) (body : Statement) : Statement := .loop (some test) none body

/-- A counting loop: its variable is known in its clauses and its body. -/
def forLoop (init : Statement) (test step : Option Expression) (body : Statement) : Statement :=
  .block (.next init (.loop test step body))

/-- The statement declares nothing around it. -/
def Flat : Statement → Prop
  | .next _ _ | .declare .. | .define .. => False
  | _ => True

/-- No `break` or `continue` leads out of the statement. -/
def Closed : Statement → Prop
  | .leave | .again => False
  | .next a b | .choose _ a b => a.Closed ∧ b.Closed
  | .block s => s.Closed
  | _ => True

/-- The names of the functions declared in a statement, of those inside them too. -/
def functions : Statement → List String
  | .next a b => a.functions ++ b.functions
  | .block s => s.functions
  | .choose _ s t => s.functions ++ t.functions
  | .loop _ _ s => s.functions
  | .define name _ s => name :: s.functions
  | _ => []

/-- What is written is proper: numbers come from literals, and only blocks and
sequences hold declarations. -/
def Proper : Statement → Prop
  | .done | .leave | .again => True
  | .next a b => a.Proper ∧ b.Proper
  | .print e | .expression e => e.Genuine
  | .declare _ _ init => ∀ e ∈ init, e.Genuine
  | .block s => s.Proper
  | .giveBack value => ∀ e ∈ value, e.Genuine
  | .define _ _ s => s.Proper
  | .choose c s t => c.Genuine ∧ s.Proper ∧ t.Proper ∧ s.Flat ∧ t.Flat
  | .loop test step s => (∀ e ∈ test, e.Genuine) ∧ (∀ e ∈ step, e.Genuine) ∧ s.Proper ∧ s.Flat

end Statement

/-- Where a statement may stand. -/
inductive Category where
  /-- Inside another statement. -/
  | statement
  /-- Where declarations may stand as well. -/
  | declaration
  /-- Any number of declarations and statements. -/
  | sequence

/-- The tokens declare a variable. -/
inductive DeclarationWritten : Statement → List Token → Prop where
  | plain {k n m : Token} {assignable : Bool}
      (word : k.kind = if assignable then .var else .const) (name : n.kind = .identifier)
      (closed : m.kind = .semicolon) :
      DeclarationWritten (.declare assignable n.lexeme none) [k, n, m]
  | initialized {k n q m : Token} {assignable : Bool} {p : Precedence} {e : Expression}
      {ts : List Token} (word : k.kind = if assignable then .var else .const)
      (name : n.kind = .identifier) (equal : q.kind = .equal) (value : Written p e ts)
      (closed : m.kind = .semicolon) :
      DeclarationWritten (.declare assignable n.lexeme (some e)) (k :: n :: q :: (ts ++ [m]))

/-- The tokens write the first clause of a counting loop. -/
inductive InitializerWritten : Statement → List Token → Prop where
  | none {m : Token} (closed : m.kind = .semicolon) : InitializerWritten .done [m]
  | declaration {s : Statement} {ts : List Token} (written : DeclarationWritten s ts) :
      InitializerWritten s ts
  | expression {m : Token} {p : Precedence} {e : Expression} {ts : List Token}
      (value : Written p e ts) (closed : m.kind = .semicolon) :
      InitializerWritten (.expression e) (ts ++ [m])

/-- The tokens write a clause that may be left out. -/
inductive ClauseWritten : Option Expression → List Token → Prop where
  | none : ClauseWritten none []
  | some {p : Precedence} {e : Expression} {ts : List Token} (value : Written p e ts) :
      ClauseWritten (some e) ts

/-- The tokens write names with commas between them. -/
inductive NamesWritten : List String → List Token → Prop where
  | single {n : Token} (name : n.kind = .identifier) : NamesWritten [n.lexeme] [n]
  | cons {n m : Token} {names : List String} {ts : List Token} (name : n.kind = .identifier)
      (comma : m.kind = .comma) (others : NamesWritten names ts) :
      NamesWritten (n.lexeme :: names) (n :: m :: ts)

/-- The tokens write the parameters of a function. -/
inductive ParametersWritten : List String → List Token → Prop where
  | none : ParametersWritten [] []
  | some {names : List String} {ts : List Token} (list : NamesWritten names ts) :
      ParametersWritten names ts

/-- The tokens write a statement.  The flag says whether it ends with an `if` to
which an `else` behind it would belong. -/
inductive StatementWritten : Category → (ends : Bool) → Statement → List Token → Prop where
  | print {k m : Token} {p : Precedence} {e : Expression} {ts : List Token}
      (word : k.kind = .print) (value : Written p e ts) (closed : m.kind = .semicolon) :
      StatementWritten .statement false (.print e) (k :: (ts ++ [m]))
  | expression {m : Token} {p : Precedence} {e : Expression} {ts : List Token}
      (value : Written p e ts) (closed : m.kind = .semicolon) :
      StatementWritten .statement false (.expression e) (ts ++ [m])
  | block {l r : Token} {ends : Bool} {s : Statement} {ts : List Token}
      (opened : l.kind = .leftBrace) (body : StatementWritten .sequence ends s ts)
      (closed : r.kind = .rightBrace) :
      StatementWritten .statement false (.block s) (l :: (ts ++ [r]))
  | when {k l r : Token} {p : Precedence} {ends : Bool} {e : Expression} {s : Statement}
      {ts us : List Token} (word : k.kind = .if) (opened : l.kind = .leftParen)
      (test : Written p e ts) (closed : r.kind = .rightParen)
      (yes : StatementWritten .statement ends s us) :
      StatementWritten .statement true (.choose e s .done) (k :: l :: (ts ++ r :: us))
  | choose {k l r o : Token} {p : Precedence} {ends : Bool} {e : Expression} {s t : Statement}
      {ts us vs : List Token} (word : k.kind = .if) (opened : l.kind = .leftParen)
      (test : Written p e ts) (closed : r.kind = .rightParen)
      (yes : StatementWritten .statement false s us) (other : o.kind = .else)
      (no : StatementWritten .statement ends t vs) :
      StatementWritten .statement ends (.choose e s t)
        (k :: l :: (ts ++ r :: (us ++ o :: vs)))
  | whileLoop {k l r : Token} {p : Precedence} {ends : Bool} {e : Expression} {s : Statement}
      {ts us : List Token} (word : k.kind = .while) (opened : l.kind = .leftParen)
      (test : Written p e ts) (closed : r.kind = .rightParen)
      (body : StatementWritten .statement ends s us) :
      StatementWritten .statement ends (.whileLoop e s) (k :: l :: (ts ++ r :: us))
  | forLoop {k l m r : Token} {ends : Bool} {init : Statement} {test step : Option Expression}
      {s : Statement} {is ts us vs : List Token} (word : k.kind = .for)
      (opened : l.kind = .leftParen) (first : InitializerWritten init is)
      (second : ClauseWritten test ts) (middle : m.kind = .semicolon)
      (third : ClauseWritten step us) (closed : r.kind = .rightParen)
      (body : StatementWritten .statement ends s vs) :
      StatementWritten .statement ends (.forLoop init test step s)
        (k :: l :: (is ++ (ts ++ m :: (us ++ r :: vs))))
  | leave {k m : Token} (word : k.kind = .break) (closed : m.kind = .semicolon) :
      StatementWritten .statement false .leave [k, m]
  | again {k m : Token} (word : k.kind = .continue) (closed : m.kind = .semicolon) :
      StatementWritten .statement false .again [k, m]
  | giveBack {k m : Token} {value : Option Expression} {ts : List Token}
      (word : k.kind = .return) (clause : ClauseWritten value ts) (closed : m.kind = .semicolon) :
      StatementWritten .statement false (.giveBack value) (k :: (ts ++ [m]))
  | declare {s : Statement} {ts : List Token} (written : DeclarationWritten s ts) :
      StatementWritten .declaration false s ts
  | define {k n l r b d : Token} {ends : Bool} {names : List String} {s : Statement}
      {ps ts : List Token} (word : k.kind = .fn) (name : n.kind = .identifier)
      (opened : l.kind = .leftParen) (parameters : ParametersWritten names ps)
      (closed : r.kind = .rightParen) (begun : b.kind = .leftBrace)
      (body : StatementWritten .sequence ends s ts) (ended : d.kind = .rightBrace) :
      StatementWritten .declaration false (.define n.lexeme names s)
        (k :: n :: l :: (ps ++ r :: b :: (ts ++ [d])))
  | statement {ends : Bool} {s : Statement} {ts : List Token}
      (written : StatementWritten .statement ends s ts) :
      StatementWritten .declaration ends s ts
  | done : StatementWritten .sequence false .done []
  | next {ends ends' : Bool} {s t : Statement} {ts us : List Token}
      (first : StatementWritten .declaration ends s ts)
      (rest : StatementWritten .sequence ends' t us) :
      StatementWritten .sequence ends' (.next s t) (ts ++ us)

/-! ## What is written -/

theorem DeclarationWritten.proper {s : Statement} {ts : List Token}
    (h : DeclarationWritten s ts) : s.Proper := by
  cases h with
  | plain => simp [Statement.Proper]
  | initialized _ _ _ value => simpa [Statement.Proper] using value.genuine

theorem InitializerWritten.proper {s : Statement} {ts : List Token}
    (h : InitializerWritten s ts) : s.Proper := by
  cases h with
  | none => trivial
  | declaration written => exact written.proper
  | expression value => exact value.genuine

theorem ClauseWritten.genuine {clause : Option Expression} {ts : List Token}
    (h : ClauseWritten clause ts) : ∀ e ∈ clause, e.Genuine := by
  cases h with
  | none => simp
  | some value => simpa using value.genuine

/-- What is written is proper, and where declarations may not stand there are none. -/
theorem StatementWritten.proper {k : Category} {ends : Bool} {s : Statement} {ts : List Token}
    (h : StatementWritten k ends s ts) : s.Proper ∧ (k = .statement → s.Flat) := by
  induction h with
  | print _ value | expression value => exact ⟨value.genuine, fun _ => trivial⟩
  | block _ _ _ body => exact ⟨body.1, fun _ => trivial⟩
  | when _ _ test _ _ yes =>
      exact ⟨⟨test.genuine, yes.1, trivial, yes.2 rfl, trivial⟩, fun _ => trivial⟩
  | choose _ _ test _ _ _ _ yes no =>
      exact ⟨⟨test.genuine, yes.1, no.1, yes.2 rfl, no.2 rfl⟩, fun _ => trivial⟩
  | whileLoop _ _ test _ _ body =>
      exact ⟨⟨by simpa using test.genuine, by simp, body.1, body.2 rfl⟩, fun _ => trivial⟩
  | forLoop _ _ first second _ third _ _ body =>
      exact ⟨⟨first.proper, second.genuine, third.genuine, body.1, body.2 rfl⟩, fun _ => trivial⟩
  | leave | again => exact ⟨trivial, fun _ => trivial⟩
  | giveBack _ clause => exact ⟨clause.genuine, fun _ => trivial⟩
  | declare written => exact ⟨written.proper, nofun⟩
  | define _ _ _ _ _ _ _ _ body => exact ⟨body.1, nofun⟩
  | statement _ ih => exact ⟨ih.1, nofun⟩
  | done => exact ⟨trivial, nofun⟩
  | next _ _ first rest => exact ⟨⟨first.1, rest.1⟩, nofun⟩

/-- A token with which a declaration or a statement may begin. -/
def TokenKind.Begins (kind : TokenKind) : Prop :=
  kind ≠ .rightBrace ∧ kind ≠ .else ∧ kind ≠ .eof

theorem DeclarationWritten.head {s : Statement} {ts : List Token} (h : DeclarationWritten s ts) :
    ∃ t rest, ts = t :: rest ∧ (t.kind = .var ∨ t.kind = .const) := by
  have word {k : Token} {assignable : Bool} (h : k.kind = if assignable then .var else .const) :
      k.kind = .var ∨ k.kind = .const := by
    cases assignable
    · exact .inr h
    · exact .inl h
  cases h with
  | plain h => exact ⟨_, _, rfl, word h⟩
  | initialized h => exact ⟨_, _, rfl, word h⟩

/-- A statement begins with a word that announces it, or as an expression does. -/
theorem StatementWritten.head {k : Category} {ends : Bool} {s : Statement} {ts : List Token}
    (h : StatementWritten k ends s ts) (one : k ≠ .sequence) :
    ∃ t rest, ts = t :: rest ∧ t.kind.Begins := by
  have announced {t : Token} {kind : TokenKind} (h : t.kind = kind) (begins : kind.Begins) :
      t.kind.Begins := by
    rw [h]
    exact begins
  have word {t : Token} {kind : TokenKind} {rest : List Token} (h : t.kind = kind)
      (begins : kind.Begins) : ∃ u us, t :: rest = u :: us ∧ u.kind.Begins :=
    ⟨t, rest, rfl, announced h begins⟩
  induction h with
  | print h | leave h | again h | whileLoop h | forLoop h | block h | when h | choose h
  | giveBack h | define h =>
      exact word h (by simp [TokenKind.Begins])
  | expression value =>
      obtain ⟨t, rest, rfl, opens⟩ := value.head
      refine ⟨t, _, rfl, ?_⟩
      refine ⟨?_, ?_, ?_⟩ <;> (intro kind; rw [kind] at opens; cases opens)
  | declare written =>
      obtain ⟨t, rest, rfl, kind | kind⟩ := written.head
      · exact word kind (by simp [TokenKind.Begins])
      · exact word kind (by simp [TokenKind.Begins])
  | statement _ ih => exact ih nofun
  | done | next => exact absurd rfl one

/-- A token with which only a declaration begins. -/
def TokenKind.Declares (kind : TokenKind) : Prop :=
  kind = .fn ∨ kind = .var ∨ kind = .const ∨ kind = .class

/-- No statement begins like a declaration. -/
theorem StatementWritten.statement_head {ends : Bool} {s : Statement} {ts : List Token}
    (h : StatementWritten .statement ends s ts) :
    ∃ t rest, ts = t :: rest ∧ ¬ t.kind.Declares := by
  have word {t : Token} {kind : TokenKind} {rest : List Token} (h : t.kind = kind)
      (apart : ¬ kind.Declares) : ∃ u us, t :: rest = u :: us ∧ ¬ u.kind.Declares :=
    ⟨t, rest, rfl, by rw [h]; exact apart⟩
  cases h with
  | print h | leave h | again h | whileLoop h | forLoop h | block h | when h | choose h
  | giveBack h =>
      exact word h (by simp [TokenKind.Declares])
  | expression value =>
      obtain ⟨t, rest, rfl, opens⟩ := value.head
      refine ⟨t, _, rfl, ?_⟩
      rintro (kind | kind | kind | kind) <;> (rw [kind] at opens; cases opens)

theorem StatementWritten.sequence_head {ends : Bool} {s : Statement} {ts : List Token}
    (h : StatementWritten .sequence ends s ts) :
    ts = [] ∨ ∃ t rest, ts = t :: rest ∧ t.kind.Begins := by
  cases h with
  | done => exact .inl rfl
  | next first rest =>
      obtain ⟨t, others, rfl, begins⟩ := first.head nofun
      exact .inr ⟨t, _, rfl, begins⟩

end StackScript
