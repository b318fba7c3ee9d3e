import StackScript.Bytecode.Listing
import StackScript.Compile.Program
import StackScript.Machine.Step

/-!
# Runs

A run executes a script from an empty stack until it returns or a fault stops
it; either way stack and calls are empty afterwards.  Since a script may run for
ever, a run is given a number of steps, and a third outcome says that they were
not enough.
-/

namespace StackScript

/-- How a run ends. -/
inductive RunOutcome where
  | finished
  | failed (error : RuntimeError)
  /-- The script was still running after the given number of steps. -/
  | unfinished
deriving DecidableEq, Repr

/-- How the execution of instructions ends, and in which call. -/
inductive Halt where
  | finished (frame : Frame)
  | faulted (frame : Frame) (fault : Fault)
  | unfinished (frame : Frame)

namespace Machine

/-- Logs the stack and the next instruction of a call. -/
def traceInstruction (m : Machine) (frame : Frame) : Machine :=
  let m := m.record .trace fun _ =>
    m.stack.foldl (fun text value => text ++ "[ " ++ value.display ++ " ]") "          "
  m.record .trace fun _ => (frame.routine.chunk.listAt frame.ip).1

/-- Executes up to `limit` instructions. -/
def execute : (limit : Nat) → Frame → Machine → Halt × Machine
  | 0, frame, m => (.unfinished frame, m)
  | limit + 1, frame, m =>
    let m := if m.config.traceExecution then m.traceInstruction frame else m
    match step frame m with
    | .ok .finished m => (.finished frame.atNext, m)
    | .ok (.running next) m => execute limit next m
    | .error fault m => (.faulted frame.atNext fault, m)

/-- The runtime error for a fault in the given call. -/
def runtimeError (m : Machine) (frame : Frame) (fault : Fault) : RuntimeError :=
  ⟨frame.line, fault, (frame :: m.callers.toList.reverse).map Frame.traceEntry⟩

/-- Flushes the output. -/
def flush : Exec Unit := withSink Sink.flush .output

/-- The machine after its output has been flushed, whether or not that
succeeded. -/
def flushed (m : Machine) : Machine :=
  match flush m with
  | .ok _ m => m
  | .error _ m => m

/-- The machine without values and calls. -/
def clear (m : Machine) : Machine := { m with stack := #[], callers := #[] }

/-- Ends a run with a runtime error. -/
def fail (m : Machine) (frame : Frame) (fault : Fault) : RunOutcome × Machine :=
  (.failed (m.runtimeError frame fault), m.flushed.clear)

/-- Prepares a run of a script: the script alone is on the stack. -/
def begin (script : Routine) (m : Machine) : Frame × Machine :=
  (.enter script 0, { m.clear with stack := #[.routine script] })

/-- Ends a run whose instructions have halted. -/
def conclude (halt : Halt) (m : Machine) : RunOutcome × Machine :=
  match halt with
  | .unfinished _ => (.unfinished, m)
  | .faulted frame fault => m.fail frame fault
  | .finished frame =>
    match flush m with
    | .error fault m => m.fail frame fault
    | .ok _ m =>
      (.finished, m.record .debug fun _ =>
        "script finished, " ++ toString m.globals.size ++ " globals")

/-- Runs a script for at most `limit` instructions. -/
def run (limit : Nat) (script : Routine) (m : Machine) : RunOutcome × Machine :=
  let (frame, m) := m.begin script
  let (halt, m) := execute limit frame m
  m.conclude halt

/-- Log message about a completed routine. -/
def completedMessage (r : Routine) : String :=
  "compiled " ++ (if r.name.isSome then "Function" else "Script") ++ " '" ++ r.displayName ++
    "': " ++ toString r.chunk.size ++ " bytes, " ++ toString r.chunk.constants.size ++
    " constants, arity " ++ toString r.arity

/-- Compiles a source with the strings of the machine. -/
def compile (source : String) (m : Machine) : Except (Array CompileError) Routine × Machine :=
  let compilation := StackScript.compile source m.heap
  let m := { m with heap := compilation.heap }
  let m := compilation.completed.foldl
    (fun m r => m.record .debug fun _ => completedMessage r) m
  match compilation.result with
  | .ok script => (.ok script, m)
  | .error errors =>
    (.error errors, m.record .debug fun _ =>
      "compile failed with " ++ toString errors.size ++ " error(s)")

/-- Compiles a source and runs it. -/
def interpret (limit : Nat) (source : String) (m : Machine) :
    Except (Array CompileError) RunOutcome × Machine :=
  match m.compile source with
  | (.error errors, m) => (.error errors, m)
  | (.ok script, m) =>
    let (outcome, m) := m.run limit script
    (.ok outcome, m)

end Machine
end StackScript
