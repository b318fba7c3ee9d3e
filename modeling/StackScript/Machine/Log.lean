/-!
# Log of a machine

A machine can keep records of what it does.  A log has a level and takes no
record of a more detailed one.
-/

namespace StackScript

/-- Levels of detail, from the coarsest. -/
inductive LogLevel where
  | info | debug | trace
deriving DecidableEq, Repr

/-- The name of a level in a record. -/
def LogLevel.name : LogLevel → String
  | info => "INFO"
  | debug => "DEBUG"
  | trace => "TRACE"

/-- One record. -/
structure LogRecord where
  level : LogLevel
  message : String
deriving DecidableEq, Repr

/-- The record as one line of text. -/
def LogRecord.describe (record : LogRecord) : String :=
  record.level.name ++ " " ++ record.message

/-- Records, and the most detailed level that is kept; nothing is kept without
one. -/
structure Log where
  level : Option LogLevel
  records : Array LogRecord
deriving DecidableEq, Repr

namespace Log

/-- A log that keeps nothing. -/
def off : Log := ⟨none, #[]⟩

/-- Whether records of a level are kept. -/
def keeps (log : Log) (level : LogLevel) : Bool :=
  match log.level with
  | none => false
  | some most => level.ctorIdx ≤ most.ctorIdx

/-- Adds a record if its level is kept. -/
def add (log : Log) (level : LogLevel) (message : Unit → String) : Log :=
  if log.keeps level then ⟨log.level, log.records.push ⟨level, message ()⟩⟩ else log

end Log
end StackScript
