import StackScript.Machine.Sink
import StackScript.Value.Basic

/-!
# Functions of the host

A host function sees the globals and the operand stack of the machine that calls
it, gets its arguments, and may write output.  Host functions come in named
modules, which a loader finds by name.
-/

namespace StackScript

/-- A global variable. -/
structure Global where
  name : Text
  value : Value

/-- The global variables, sorted by name. -/
abbrev Globals := Std.TreeMap String Global

/-- What a host function may see of the machine. -/
structure NativeContext where
  globals : Globals
  /-- The whole operand stack, bottom first, with callee and arguments. -/
  stack : Array Value

/-- A host function: from context and arguments to a result, or a failure. -/
abbrev NativeFunction := NativeContext → Array Value → Output Value

/-- A named host function of a module. -/
structure NativeSymbol where
  name : String
  doc : String
  function : NativeFunction

/-- A module of host functions. -/
structure NativeModule where
  name : String
  symbols : List NativeSymbol

/-- The symbol of a name in a module. -/
def NativeModule.symbol? (module_ : NativeModule) (name : String) : Option NativeSymbol :=
  module_.symbols.find? (·.name == name)

/-- Finds modules by name. -/
abbrev ModuleLoader := String → Option NativeModule

end StackScript
