import StackScript.Source.Span

/-!
# Compile errors

A compile error says what is wrong, at which token, and where that token is.
What is wrong is one of a fixed list of problems; their wording is decided in
one place.
-/

namespace StackScript

/-- What can be wrong with a program. -/
inductive Problem where
  /-- The scanner found no token; its message says why. -/
  | lexical (message : String)
  | expectedExpression
  /-- The name of a declared thing is missing. -/
  | expectedName (thing : String)
  /-- A punctuation mark is missing at the given place. -/
  | expectedMark (mark place : String)
  | invalidNumber
  | invalidAssignmentTarget
  | unsupported (lexeme : String)
  | unsupportedClass
  | unsupportedClosure
  | redeclared (name : String)
  | selfReference
  | breakOutsideLoop
  | continueOutsideLoop
  | tooManyLocals
  | tooManyParameters
  | tooManyArguments
  | tooManyConstants
  | jumpTooFar
  | loopTooLarge
deriving DecidableEq, Repr

/-- Wording of a problem. -/
def Problem.message : Problem → String
  | lexical message => message
  | expectedExpression => "expected expression"
  | expectedName thing => "expected " ++ thing ++ " name"
  | expectedMark mark place => "expected '" ++ mark ++ "' " ++ place
  | invalidNumber => "invalid number literal"
  | invalidAssignmentTarget => "invalid assignment target"
  | unsupported lexeme => "'" ++ lexeme ++ "' is not supported"
  | unsupportedClass => "classes are not supported"
  | unsupportedClosure => "closures are not supported"
  | redeclared name => "variable '" ++ name ++ "' already declared in this scope"
  | selfReference => "self-reference in initializer"
  | breakOutsideLoop => "'break' outside of a loop"
  | continueOutsideLoop => "'continue' outside of a loop"
  | tooManyLocals => "too many local variables in function"
  | tooManyParameters => "can't have more than 255 parameters"
  | tooManyArguments => "can't have more than 255 arguments"
  | tooManyConstants => "too many constants in one chunk"
  | jumpTooFar => "too much code to jump over"
  | loopTooLarge => "loop body too large"

/-- Where an error was noticed. -/
inductive ErrorLocation where
  /-- At a token with the given text. -/
  | token (lexeme : String)
  /-- At the end of the source. -/
  | atEnd
  /-- In the scanner, whose message already describes the place. -/
  | lexical
deriving DecidableEq, Repr

/-- Wording of a location inside an error line. -/
def ErrorLocation.describe : ErrorLocation → String
  | token lexeme => " at '" ++ lexeme ++ "'"
  | atEnd => " at end"
  | lexical => ""

/-- One compile error. -/
structure CompileError where
  line : Nat
  location : ErrorLocation
  problem : Problem
  span : Span
deriving DecidableEq, Repr

namespace CompileError

/-- Wording of what is wrong. -/
def message (e : CompileError) : String := e.problem.message

/-- The error as one line of text. -/
def describe (e : CompileError) : String :=
  "[line " ++ toString e.line ++ "] Error" ++ e.location.describe ++ ": " ++ e.message

end CompileError
end StackScript
