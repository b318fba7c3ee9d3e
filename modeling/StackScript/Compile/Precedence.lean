import StackScript.Token.Kind

/-!
# Precedence of operators

Expressions are read by precedence: each kind of token says how it begins an
expression, how it continues one, and how tightly it binds when it does.
-/

namespace StackScript

/-- How tightly an operator binds, from the loosest to the tightest. -/
inductive Precedence where
  | none | assignment | or | and | equality | comparison | term | factor | unary
  | call | primary
deriving DecidableEq, Repr

namespace Precedence

/-- Place in the order of precedences. -/
def rank (p : Precedence) : Nat := p.ctorIdx

/-- Whether an operator of precedence `q` may continue an operand that has to
bind at least as tightly as `p`. -/
def admits (p q : Precedence) : Bool := p.rank ≤ q.rank

/-- The next tighter precedence. -/
def tighter : Precedence → Precedence
  | none => assignment
  | assignment => or
  | or => and
  | and => equality
  | equality => comparison
  | comparison => term
  | term => factor
  | factor => unary
  | unary => call
  | call => primary
  | primary => primary

end Precedence

/-- How a token begins an expression. -/
inductive Opening where
  | grouping | unary | variable | string | number | literal | unsupported
deriving DecidableEq, Repr

/-- How a token continues an expression. -/
inductive Continuation where
  | binary | and | or | call | unsupported
deriving DecidableEq, Repr

namespace TokenKind

/-- How a token of the kind begins an expression, if it can. -/
def opening? : TokenKind → Option Opening
  | leftParen => some .grouping
  | minus | bang => some .unary
  | identifier => some .variable
  | string => some .string
  | number => some .number
  | .false | .true | null => some .literal
  | this | super => some .unsupported
  | _ => none

/-- How a token of the kind continues an expression, if it can. -/
def continuation? : TokenKind → Option Continuation
  | leftParen => some .call
  | dot => some .unsupported
  | minus | plus | slash | star => some .binary
  | bangEqual | equalEqual => some .binary
  | greater | greaterEqual | less | lessEqual => some .binary
  | and => some .and
  | or => some .or
  | _ => none

/-- How tightly a token of the kind binds as a continuation. -/
def precedence : TokenKind → Precedence
  | leftParen | dot => .call
  | minus | plus => .term
  | slash | star => .factor
  | bangEqual | equalEqual => .equality
  | greater | greaterEqual | less | lessEqual => .comparison
  | and => .and
  | or => .or
  | _ => .none

end TokenKind
end StackScript
