/-!
# Kinds of tokens

The vocabulary of the language: punctuation, operators, literals, keywords, and
two markers, one for text that is no token and one for the end of the source.
-/

namespace StackScript

/-- The class of a token. -/
inductive TokenKind where
  | leftParen | rightParen | leftBrace | rightBrace
  | comma | dot | minus | plus | semicolon | slash | star
  | bang | bangEqual | equal | equalEqual
  | greater | greaterEqual | less | lessEqual | leftArrow | rightArrow
  | identifier | string | number
  | and | break | class : TokenKind | const | continue | else | false | for | fn | if
  | null | or | print | return | super | this | true | var | while
  | error | eof
deriving DecidableEq, Repr

namespace TokenKind

/-- The name under which a kind is listed. -/
def name : TokenKind → String
  | leftParen => "LeftParen" | rightParen => "RightParen"
  | leftBrace => "LeftBrace" | rightBrace => "RightBrace"
  | comma => "Comma" | dot => "Dot" | minus => "Minus" | plus => "Plus"
  | semicolon => "Semicolon" | slash => "Slash" | star => "Star"
  | bang => "Bang" | bangEqual => "BangEqual"
  | equal => "Equal" | equalEqual => "EqualEqual"
  | greater => "Greater" | greaterEqual => "GreaterEqual"
  | less => "Less" | lessEqual => "LessEqual"
  | leftArrow => "LeftArrow" | rightArrow => "RightArrow"
  | identifier => "Identifier" | string => "String" | number => "Number"
  | and => "And" | .break => "Break" | .class => "Class" | const => "Const"
  | .continue => "Continue" | .else => "Else" | .false => "False" | .for => "For"
  | .fn => "Fn" | .if => "If" | null => "Null" | or => "Or" | print => "Print"
  | .return => "Return" | super => "Super" | this => "This" | .true => "True"
  | var => "Var" | .while => "While" | error => "Error" | eof => "Eof"

/-- The reserved words. -/
def keywords : List (String × TokenKind) :=
  [("and", and), ("break", .break), ("class", .class), ("const", const),
   ("continue", .continue), ("else", .else), ("false", .false), ("fn", .fn),
   ("for", .for), ("if", .if), ("null", null), ("or", or), ("print", print),
   ("return", .return), ("super", super), ("this", this), ("true", .true),
   ("var", var), ("while", .while)]

/-- The kind of a word: a keyword when it is reserved, otherwise an
identifier. -/
def ofWord (word : String) : TokenKind :=
  (keywords.lookup word).getD identifier

/-- The operator or punctuation mark written with one character. -/
def ofCharacter : Char → Option TokenKind
  | '(' => some leftParen | ')' => some rightParen
  | '{' => some leftBrace | '}' => some rightBrace
  | ',' => some comma | '.' => some dot | '-' => some minus | '+' => some plus
  | ';' => some semicolon | '/' => some slash | '*' => some star
  | '!' => some bang | '=' => some equal | '>' => some greater | '<' => some less
  | _ => none

/-- The operator written with two characters. -/
def ofPair : Char → Char → Option TokenKind
  | '!', '=' => some bangEqual | '=', '=' => some equalEqual
  | '>', '=' => some greaterEqual | '<', '=' => some lessEqual
  | '<', '-' => some leftArrow | '-', '>' => some rightArrow
  | _, _ => none

end TokenKind
end StackScript
