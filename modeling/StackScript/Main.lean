import StackScript.CommandLine.Session

/-!
# The program

Reads the command line, runs a script or an interactive input, and writes output
as it comes, a slice of instructions at a time.
-/

namespace StackScript
namespace CommandLine

/-- Number of instructions between two writes of output. -/
def sliceLength : Nat := Nat.pow 2 16

/-- Writes what the session has said so far, and forgets it. -/
def deliver (s : Session) : IO Session := do
  let out ← IO.getStdout
  let err ← IO.getStderr
  out.write s.machine.sink.written
  out.flush
  err.putStr s.errors
  err.flush
  return { s with machine := { s.machine with sink := .empty }, errors := "" }

/-- Goes on with the run of a source until it ends. -/
partial def drive (source : String) (frame : Frame) (s : Session) :
    IO (ExitStatus × Session) := do
  let (halt, machine) := s.machine.execute sliceLength frame
  let s := { s with machine }
  match halt with
  | .unfinished frame => drive source frame (← deliver s.sayLog)
  | halt =>
    let (status, s) := s.conclude source halt
    return (status.getD .success, ← deliver s)

/-- Compiles and runs a source. -/
def runSource (source : String) (s : Session) : IO (ExitStatus × Session) := do
  match s.load source with
  | (none, s) => return (.data, ← deliver s)
  | (some frame, s) => drive source frame (← deliver s)

/-- Reads bytes up to a line feed or the end of the input. -/
partial def readLine (input : IO.FS.Stream) (line : ByteArray) : IO ByteArray := do
  let bytes ← input.read 1
  match bytes.data[0]? with
  | none => return line
  | some byte => if byte = 10 then return line.push byte else readLine input (line.push byte)

/-- Runs the lines of the standard input. -/
partial def interact (s : Session) : IO ExitStatus := do
  let s ← deliver s.prompt
  let bytes ← readLine (← IO.getStdin) .empty
  match splitLines bytes with
  | [] =>
    discard (deliver (s.print "\n"))
    return .success
  | line :: _ =>
    match String.fromUTF8? line with
    | none =>
      discard (deliver (s.sayLine Session.invalidText))
      return .io
    | some source => interact (← runSource source s).2

/-- Contents of a file, or why it cannot be read. -/
def readFile (path : String) : IO (Except String ByteArray) := do
  try
    return .ok (← IO.FS.readBinFile path)
  catch e => return .error (toString e)

/-- Runs the program. -/
def runProgram (arguments : List String) : IO ExitStatus := do
  let write (t : Transcript) : IO ExitStatus := do
    (← IO.getStdout).write t.output
    (← IO.getStderr).putStr t.errors
    return t.status
  match parse arguments with
  | .error stop => write stop.transcript
  | .ok options =>
    match Session.start options (← (← IO.getStderr).isTty) with
    | .error name => write (unknownModule name)
    | .ok s =>
      match options.file with
      | none => interact s
      | some path =>
        match Session.decodeFile path (← readFile path) with
        | .error message =>
          discard (deliver (s.sayLine message))
          return .io
        | .ok source => return (← runSource source s).1

end CommandLine
end StackScript

def main (arguments : List String) : IO UInt32 := do
  return (← StackScript.CommandLine.runProgram arguments).code.toUInt32
