import StackScript.CommandLine.Options
import StackScript.Diagnostic.Json
import StackScript.Diagnostic.Pretty
import StackScript.Library.Standard
import StackScript.Machine.Run

/-!
# Sessions

A session is one use of the program: it runs one script, or the lines of an
interactive input one after the other in one machine.  Output goes to the sink
of the machine; everything else that is said goes to the error text.
-/

namespace StackScript
namespace CommandLine

/-- How the program ends. -/
inductive ExitStatus where
  | success
  /-- The command line makes no sense. -/
  | usage
  /-- The script does not compile. -/
  | data
  /-- The script failed. -/
  | software
  /-- Something could not be read. -/
  | io
deriving DecidableEq, Repr

/-- The exit code of a status. -/
def ExitStatus.code : ExitStatus → Nat
  | success => 0
  | usage => 64
  | data => 65
  | software => 70
  | io => 74

/-- The state of a session. -/
structure Session where
  machine : Machine
  format : ErrorFormat
  dump : Bool
  /-- Whether error reports are painted. -/
  color : Bool
  /-- What has been said on the error stream. -/
  errors : String

namespace Session

/-- Says something on the error stream. -/
def say (s : Session) (text : String) : Session := { s with errors := s.errors ++ text }

/-- Says a line on the error stream. -/
def sayLine (s : Session) (text : String) : Session := s.say (text ++ "\n")

/-- Writes to the output. -/
def print (s : Session) (text : String) : Session :=
  match Machine.withSink (Sink.write text) .output s.machine with
  | .ok _ machine => { s with machine }
  | .error _ machine => { s with machine }

/-- Moves the log of the machine to the error stream. -/
def sayLog (s : Session) : Session :=
  let records := s.machine.log.records
  let machine := { s.machine with log := ⟨s.machine.log.level, #[]⟩ }
  records.foldl (fun s record => s.sayLine record.describe) { s with machine }

/-- Reports an error, which has the given lines in the plain format. -/
def report (s : Session) (d : Diagnostic) (plainLines : List String) : Session :=
  match s.format with
  | .plain => plainLines.foldl sayLine s
  | .pretty => s.say (Pretty.render s.color d)
  | .json => s.sayLine (Json.render d)

/-- Reports the errors of a source that does not compile. -/
def reportCompileErrors (s : Session) (errors : Array CompileError) (source : String) :
    Session :=
  let lines := LineTable.ofString source
  errors.foldl (fun s e =>
    s.report ((Diagnostic.ofCompileError e).withSource lines) [e.describe]) s

/-- Reports the error of a failed run. -/
def reportRuntimeError (s : Session) (e : RuntimeError) (source : String) : Session :=
  s.report ((Diagnostic.ofRuntimeError e).withSource (LineTable.ofString source))
    (e.describe :: e.trace.map TraceEntry.describe)

/-- A session with all modules imported, or the name of one that is unknown. -/
def start (options : Options) (color : Bool) : Except String Session := do
  let level :=
    if options.trace then some LogLevel.trace
    else if options.verbose then some LogLevel.debug
    else none
  let machine := { Machine.start options.config Library.load with log := ⟨level, #[]⟩ }
  let machine ← ("io" :: options.imports).foldlM (fun m name =>
    match m.importModule name with
    | (some _, m) => .ok m
    | (none, _) => .error name) machine
  return {
    machine := machine
    format := options.format.getD .plain
    dump := options.dump
    color := color
    errors := "" }

/-- Compiles a source and prepares its run; there is no run if it does not
compile. -/
def load (source : String) (s : Session) : Option Frame × Session :=
  match s.machine.compile source with
  | (.error errors, machine) =>
    (none, { s with machine }.sayLog.reportCompileErrors errors source)
  | (.ok script, machine) =>
    let s := { s with machine }.sayLog
    let s := if s.dump then s.say script.list else s
    let (frame, machine) := s.machine.begin script
    (some frame, { s with machine })

/-- Ends the run of a source; it has no status while it is unfinished. -/
def conclude (source : String) (halt : Halt) (s : Session) : Option ExitStatus × Session :=
  match s.machine.conclude halt with
  | (.unfinished, machine) => (none, { s with machine }.sayLog)
  | (.finished, machine) => (some .success, { s with machine }.sayLog)
  | (.failed e, machine) =>
    (some .software, { s with machine }.sayLog.reportRuntimeError e source)

/-- Runs a source for at most `limit` instructions. -/
def execute (limit : Nat) (source : String) (s : Session) : Option ExitStatus × Session :=
  match s.load source with
  | (none, s) => (some .data, s)
  | (some frame, s) =>
    let (halt, machine) := s.machine.execute limit frame
    { s with machine }.conclude source halt

/-- What is said about bytes that are not UTF-8. -/
def invalidText : String := "stream did not contain valid UTF-8"

/-- The text of a script file, or what is said if it cannot be read. -/
def decodeFile (path : String) (contents : Except String ByteArray) : Except String String :=
  let refuse (reason : String) := "could not read file '" ++ path ++ "': " ++ reason
  match contents with
  | .error reason => .error (refuse reason)
  | .ok bytes =>
    match String.fromUTF8? bytes with
    | some source => .ok source
    | none => .error (refuse invalidText)

/-- Runs a script file. -/
def runFile (limit : Nat) (path : String) (contents : Except String ByteArray)
    (s : Session) : Option ExitStatus × Session :=
  match decodeFile path contents with
  | .error message => (some .io, s.sayLine message)
  | .ok source => s.execute limit source

/-- Asks for the next line of an interactive input. -/
def prompt (s : Session) : Session := s.print "> "

/-- Runs the lines of an interactive input; errors in one line do not keep the
next from running. -/
def converse (limit : Nat) : List ByteArray → Session → Option ExitStatus × Session
  | [], s => (some .success, s.prompt.print "\n")
  | line :: rest, s =>
    let s := s.prompt
    match String.fromUTF8? line with
    -- input that is no text ends the conversation
    | none => (some .io, s.sayLine invalidText)
    | some source =>
      match s.execute limit source with
      | (none, s) => (none, s)
      | (some _, s) => converse limit rest s

end Session

/-- The lines of an input: each ends with a line feed, or with a carriage return
and a line feed, and the last may end with the input. -/
def splitLines (input : ByteArray) : List ByteArray :=
  let finish (line : ByteArray) : ByteArray :=
    -- 13 is the carriage return, 10 the line feed
    if line.size ≠ 0 ∧ line.data.back? = some 13 then line.extract 0 (line.size - 1) else line
  let step := fun (state : Array ByteArray × ByteArray) (byte : UInt8) =>
    if byte = 10 then (state.1.push (finish state.2), .empty)
    else (state.1, state.2.push byte)
  let (lines, last) := input.data.foldl step (#[], .empty)
  (if last.size = 0 then lines else lines.push last).toList

/-- What the program writes, and how it ends. -/
structure Transcript where
  status : ExitStatus
  output : ByteArray
  errors : String

/-- What `--version` says. -/
def versionText : String := "ff 0.3.0\n"

/-- What `--help` says. -/
def helpText : String :=
  "Run ff scripts, or start a REPL when no file is given\n\n" ++
  "Usage: ff [OPTIONS] [FILE]\n\n" ++
  "Arguments:\n" ++
  "  [FILE]  Script to run\n\n" ++
  "Options:\n" ++
  "      --import <MODULE>        Register a native module before running\n" ++
  "      --dump                   Print the bytecode of every compiled function to stderr\n" ++
  "      --error-format <FORMAT>  How errors are written to stderr: plain, pretty or json\n" ++
  "      --max-frames <COUNT>     Maximum call depth\n" ++
  "      --trace                  Log every executed instruction and the stack\n" ++
  "  -v, --verbose                Debug-level logging\n" ++
  "  -h, --help                   Print help\n" ++
  "  -V, --version                Print version\n"

/-- The transcript of a command line that leaves nothing to run. -/
def Stop.transcript : Stop → Transcript
  | help => ⟨.success, helpText.toUTF8, ""⟩
  | version => ⟨.success, versionText.toUTF8, ""⟩
  | usage message => ⟨.usage, .empty, "error: " ++ message ++ "\n"⟩

/-- The transcript of a session that could not find a module. -/
def unknownModule (name : String) : Transcript :=
  ⟨.usage, .empty, "unknown module '" ++ name ++ "'\n"⟩

/-- The whole program, as far as it takes at most `limit` instructions a source:
`readFile` gives the contents of a file, and `input` is what comes in
interactively. -/
def perform (limit : Nat) (arguments : List String)
    (readFile : String → Except String ByteArray) (input : ByteArray) : Option Transcript :=
  match parse arguments with
  | .error stop => some stop.transcript
  | .ok options =>
    match Session.start options false with
    | .error name => some (unknownModule name)
    | .ok session =>
      let (status, session) :=
        match options.file with
        | some path => session.runFile limit path (readFile path)
        | none => session.converse limit (splitLines input)
      status.map fun status => ⟨status, session.machine.sink.written, session.errors⟩

end CommandLine
end StackScript
