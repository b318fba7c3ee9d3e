import StackScript.Compile.Body
import StackScript.Compile.Problem
import StackScript.Token.Scan

/-!
# State of the compiler

The compiler reads tokens one at a time and never looks further than the current
one.  After an error it panics: it goes on reading and writing, but reports
nothing until `synchronize` has found a place where a statement may begin.

Every operation is a function from state to state.  The loops of the grammar run
under a bound; a run that reached its bound would mark the state `exhausted`.
-/

namespace StackScript

/-- Everything that the compiler knows. -/
structure Compiler where
  /-- The token to be read next. -/
  current : Token
  /-- The token read last. -/
  previous : Token
  unread : List Token
  panicking : Bool
  /-- Errors in the order of their report. -/
  errors : Array CompileError
  heap : Heap
  /-- The innermost routine under construction. -/
  body : Body
  /-- The routines around it, the innermost first. -/
  enclosing : List Body
  /-- Completed routines, in the order of completion. -/
  completed : Array Routine
  /-- Whether some loop of the grammar ran into its bound. -/
  exhausted : Bool

namespace Compiler

/-- The state before the first token. -/
def start (tokens : List Token) (heap : Heap) : Compiler :=
  let token : Token := ⟨.eof, "", 1, .unknown⟩
  { current := token, previous := token, unread := tokens, panicking := false,
    errors := #[], heap, body := .start none, enclosing := [], completed := #[],
    exhausted := false }

/-- Marks that a loop ran into its bound. -/
def giveUp (c : Compiler) : Compiler := { c with exhausted := true }

/-- Runs `step` as long as `more` holds, at most `bound` times. -/
def repeatWhile (more : Compiler → Bool) (step : Compiler → Compiler) :
    (bound : Nat) → Compiler → Compiler
  | 0, c => if more c then c.giveUp else c
  | bound + 1, c => if more c then repeatWhile more step bound (step c) else c

/-! ## Errors -/

/-- Where an error at the given token is. -/
def locationOf (token : Token) : ErrorLocation :=
  match token.kind with
  | .eof => .atEnd
  | .error => .lexical
  | _ => .token token.lexeme

/-- Reports a problem at a token, and panics; does nothing in panic. -/
def reportAt (c : Compiler) (token : Token) (problem : Problem) : Compiler :=
  if c.panicking then c
  else
    let error : CompileError := ⟨token.line, locationOf token, problem, token.span⟩
    { c with panicking := true, errors := c.errors.push error }

/-- Reports a problem at the token read last. -/
def report (c : Compiler) (problem : Problem) : Compiler :=
  c.reportAt c.previous problem

/-- Reports a problem at the token to be read next. -/
def reportCurrent (c : Compiler) (problem : Problem) : Compiler :=
  c.reportAt c.current problem

/-! ## Tokens -/

/-- Takes the first of the tokens that is no error token as the current one, and
reports the error tokens before it. -/
def fetch (c : Compiler) : List Token → Compiler
  | [] => { c with unread := [] }
  | token :: rest =>
    let c := { c with current := token, unread := rest }
    if token.kind = .error then fetch (c.reportAt token (.lexical token.lexeme)) rest
    else c

/-- Reads one token. -/
def advance (c : Compiler) : Compiler :=
  fetch { c with previous := c.current } c.unread

/-- Whether the current token is of a kind. -/
def check (c : Compiler) (kind : TokenKind) : Bool := c.current.kind == kind

/-- Reads a token of the given kind, or reports a problem and reads nothing. -/
def consume (c : Compiler) (kind : TokenKind) (problem : Problem) : Compiler :=
  if c.check kind then c.advance else c.reportCurrent problem

theorem length_unread_fetch (tokens : List Token) (c : Compiler) :
    (c.fetch tokens).unread.length ≤ tokens.length - 1 := by
  induction tokens generalizing c with
  | nil => simp [fetch]
  | cons token rest ih =>
    simp only [fetch]
    split
    · have := ih (reportAt { c with current := token, unread := rest } token
        (.lexical token.lexeme))
      simp only [List.length_cons]
      omega
    · simp

theorem length_unread_advance (c : Compiler) :
    c.advance.unread.length ≤ c.unread.length - 1 :=
  length_unread_fetch c.unread _

/-- Whether a declaration or statement may begin with a token of the kind, or
could if the language had it. -/
def beginsStatement : TokenKind → Bool
  | .class | .fn | .var | .const | .for | .if | .while | .print | .return
  | .break | .continue => true
  | _ => false

/-- Reads on until the current token is the end of the source or may begin a
statement, or the token read last ends one. -/
def skipToStatement (c : Compiler) : Compiler :=
  if c.check .eof || c.previous.kind == .semicolon || beginsStatement c.current.kind then c
  else if c.unread.isEmpty then c
  else skipToStatement c.advance
termination_by c.unread.length
decreasing_by
  rename_i unread
  have shorter := length_unread_advance c
  have : c.unread.length ≠ 0 := by
    intro empty
    rw [List.length_eq_zero_iff] at empty
    simp [empty] at unread
  omega

/-- Ends the panic at a place where a statement may begin. -/
def synchronize (c : Compiler) : Compiler :=
  { c with panicking := false }.skipToStatement

end Compiler
end StackScript
