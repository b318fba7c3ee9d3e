import StackScript.Machine.Native
import StackScript.Value.Display

/-!
# Standard modules

Module `io` writes values; module `dev` shows the state of the machine.
-/

namespace StackScript
namespace Library

/-- Writes every argument followed by a space, then a newline. -/
def println : NativeFunction := fun _ arguments => do
  arguments.forM fun value => Sink.write (value.display ++ " ")
  Sink.write "\n"
  return .null

/-- Writes every global with its value, sorted by name. -/
def printGlobals : NativeFunction := fun context _ => do
  context.globals.values.forM fun global =>
    Sink.writeLine (global.name.chars ++ " = " ++ global.value.display)
  return .bool true

/-- Writes the operand stack, the top first. -/
def printStack : NativeFunction := fun context _ => do
  context.stack.toList.reverse.forM fun value => Sink.writeLine value.display
  return .bool true

/-- The module for output. -/
def io : NativeModule where
  name := "io"
  symbols := [
    ⟨"println", "Write every argument followed by a space, then a newline.", println⟩,
    ⟨"printf", "Alias of println.", println⟩]

/-- The module for inspection. -/
def dev : NativeModule where
  name := "dev"
  symbols := [
    ⟨"print_globals", "Write `name = value` for every global, sorted by name.",
      printGlobals⟩,
    ⟨"print_stack", "Write the operand stack, top first.", printStack⟩]

/-- All standard modules. -/
def modules : List NativeModule := [io, dev]

/-- The loader of the standard modules. -/
def load : ModuleLoader := fun name => modules.find? (·.name == name)

end Library
end StackScript
