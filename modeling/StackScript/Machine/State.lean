import StackScript.Machine.Fault
import StackScript.Machine.Log
import StackScript.Machine.Native

/-!
# State of the machine

The machine has an operand stack, which all calls share, and a stack of suspended
calls.  The call being executed is not part of the state: steps take it and
give it back.  Globals, strings, host functions and output outlive a run.
-/

namespace StackScript

/-- Limits and switches of a machine. -/
structure MachineConfig where
  /-- Number of calls that may be active at once, the script included. -/
  maxFrames : Nat
  /-- Number of values that the stack may hold. -/
  maxStack : Nat
  /-- Whether every instruction is logged. -/
  traceExecution : Bool
deriving DecidableEq, Repr

namespace MachineConfig

/-- Limits for the given number of calls, with room for all their locals. -/
def ofMaxFrames (maxFrames : Nat) : MachineConfig := ⟨maxFrames, maxFrames * 256, false⟩

/-- The number of calls that may be active unless another is asked for. -/
def defaultMaxFrames : Nat := 128

/-- The usual limits. -/
def standard : MachineConfig := ofMaxFrames defaultMaxFrames

end MachineConfig

/-- An active call. -/
structure Frame where
  routine : Routine
  /-- Offset of the next byte to read. -/
  ip : Nat
  /-- Offset of the instruction being executed. -/
  opStart : Nat
  /-- Stack index of the callee; its arguments and locals lie above. -/
  base : Nat

namespace Frame

/-- The frame of a call about to begin. -/
def enter (routine : Routine) (base : Nat) : Frame := ⟨routine, 0, 0, base⟩

/-- The frame at the start of its next instruction. -/
def atNext (frame : Frame) : Frame := { frame with opStart := frame.ip }

/-- Source line of the instruction being executed. -/
def line (frame : Frame) : Nat := frame.routine.chunk.lineAt frame.opStart

/-- The frame as an entry of a trace. -/
def traceEntry (frame : Frame) : TraceEntry :=
  ⟨frame.line, frame.routine.name.map Text.chars⟩

end Frame

/-- A machine. -/
structure Machine where
  config : MachineConfig
  loader : ModuleLoader
  heap : Heap
  globals : Globals
  /-- The host functions that values refer to by their index. -/
  natives : Array NativeFunction
  sink : Sink
  log : Log
  stack : Array Value
  /-- Suspended calls, the script first. -/
  callers : Array Frame

namespace Machine

/-- A machine that has not run anything. -/
def start (config : MachineConfig) (loader : ModuleLoader) : Machine where
  config := config
  loader := loader
  heap := .empty
  globals := ∅
  natives := #[]
  sink := .empty
  log := .off
  stack := #[]
  callers := #[]

/-- Value of a global variable. -/
def global? (m : Machine) (name : String) : Option Value :=
  m.globals[name]?.map Global.value

/-- Adds a record to the log. -/
def record (m : Machine) (level : LogLevel) (message : Unit → String) : Machine :=
  { m with log := m.log.add level message }

/-- Makes a host function known under a name, without binding it. -/
def addNative (m : Machine) (name : String) (function : NativeFunction) : Native × Machine :=
  let (text, heap) := m.heap.intern name
  (⟨m.natives.size, text⟩, { m with heap, natives := m.natives.push function })

/-- Binds a global variable to a host function. -/
def defineNative (m : Machine) (name : String) (function : NativeFunction) : Machine :=
  let (native, m) := m.addNative name function
  { m with globals := m.globals.insert native.name.chars ⟨native.name, .native native⟩ }

/-- Binds every function of a module; the result is their number, or none if the
loader knows no module of that name. -/
def importModule (m : Machine) (name : String) : Option Nat × Machine :=
  match m.loader name with
  | none => (none, m)
  | some found =>
    let count := found.symbols.length
    let m := found.symbols.foldl (fun m symbol => m.defineNative symbol.name symbol.function) m
    (some count, m.record .info fun _ =>
      "imported module '" ++ name ++ "' (" ++ toString count ++ " symbols)")

end Machine
end StackScript
