import StackScript.Machine.State

/-!
# Command line options

The command line names at most one script; without one the program reads
statements interactively.  Arguments are read from left to right, and the first
one that is wrong, or asks for help or the version, decides.
-/

namespace StackScript
namespace CommandLine

/-- How errors are written. -/
inductive ErrorFormat where
  | plain | pretty | json
deriving DecidableEq, Repr

/-- The format of a name. -/
def ErrorFormat.ofName? : String → Option ErrorFormat
  | "plain" => some .plain
  | "pretty" => some .pretty
  | "json" => some .json
  | _ => none

/-- What to do, and how. -/
structure Options where
  file : Option String
  /-- Modules to import, in order. -/
  imports : List String
  /-- Whether bytecode is listed before it runs. -/
  dump : Bool
  format : Option ErrorFormat
  maxFrames : Option Nat
  trace : Bool
  verbose : Bool
deriving DecidableEq, Repr

/-- The options before the first argument. -/
def Options.none : Options :=
  { file := Option.none, imports := [], dump := false, format := Option.none,
    maxFrames := Option.none, trace := false, verbose := false }

/-- Limits and switches of the machine. -/
def Options.config (options : Options) : MachineConfig :=
  { MachineConfig.ofMaxFrames (options.maxFrames.getD MachineConfig.defaultMaxFrames) with
    traceExecution := options.trace }

/-- Why the command line ends without anything to run. -/
inductive Stop where
  | help
  | version
  | usage (message : String)
deriving DecidableEq, Repr

/-- Options that take no value. -/
inductive Switch where
  | dump | trace | verbose | help | version
deriving DecidableEq, Repr

/-- Options that take a value. -/
inductive Setting where
  | importModule | errorFormat | maxFrames
deriving DecidableEq, Repr

/-- The switch of a long name. -/
def Switch.ofLong? : String → Option Switch
  | "dump" => some .dump
  | "trace" => some .trace
  | "verbose" => some .verbose
  | "help" => some .help
  | "version" => some .version
  | _ => none

/-- The switch of a letter. -/
def Switch.ofShort? : Char → Option Switch
  | 'v' => some .verbose
  | 'h' => some .help
  | 'V' => some .version
  | _ => none

/-- The setting of a long name. -/
def Setting.ofLong? : String → Option Setting
  | "import" => some .importModule
  | "error-format" => some .errorFormat
  | "max-frames" => some .maxFrames
  | _ => none

/-- A number from its decimal digits, a plus sign in front allowed. -/
def parseCount? (text : String) : Option Nat :=
  let digits :=
    match text.toList with
    | '+' :: digits => digits
    | digits => digits
  if digits.isEmpty || !digits.all Char.isDigit then Option.none
  else
    let value := digits.foldl (fun value digit => 10 * value + (digit.toNat - '0'.toNat)) 0
    if value < Nat.pow 2 64 then some value else Option.none

/-- Message about an option given twice. -/
def repeated : Stop := .usage "an option that may be given once was given twice"

/-- The options after a switch. -/
def applySwitch (options : Options) : Switch → Except Stop Options
  | .dump => if options.dump then .error repeated else .ok { options with dump := true }
  | .trace => if options.trace then .error repeated else .ok { options with trace := true }
  | .verbose =>
    if options.verbose then .error repeated else .ok { options with verbose := true }
  | .help => .error .help
  | .version => .error .version

/-- The options after a setting. -/
def applySetting (options : Options) (value : String) : Setting → Except Stop Options
  | .importModule => .ok { options with imports := options.imports ++ [value] }
  | .errorFormat =>
    match ErrorFormat.ofName? value with
    | Option.none => .error (.usage ("invalid error format '" ++ value ++ "'"))
    | some format =>
      if options.format.isSome then .error repeated
      else .ok { options with format := some format }
  | .maxFrames =>
    match parseCount? value with
    | Option.none => .error (.usage ("invalid number of frames '" ++ value ++ "'"))
    | some count =>
      if options.maxFrames.isSome then .error repeated
      else .ok { options with maxFrames := some count }

/-- The options after the name of a script. -/
def applyFile (options : Options) (file : String) : Except Stop Options :=
  if options.file.isSome then .error (.usage ("unexpected argument '" ++ file ++ "'"))
  else if file.isEmpty then .error (.usage "the name of the script is empty")
  else .ok { options with file := some file }

/-- The options after a group of one-letter switches. -/
def applyShort (options : Options) : List Char → Except Stop Options
  | [] => .ok options
  | letter :: rest =>
    match Switch.ofShort? letter with
    | Option.none => .error (.usage ("unknown option '-" ++ letter.toString ++ "'"))
    | some switch => do applyShort (← applySwitch options switch) rest

/-- Whether an argument may be the value of the option before it. -/
def mayBeValue (argument : String) : Bool :=
  match argument.toList with
  | '-' :: _ :: _ => false
  | _ => true

/-- The name of a long option, and the value after its equals sign. -/
def splitLong (text : List Char) : String × Option String :=
  let name := String.ofList (text.takeWhile (· != '='))
  match text.dropWhile (· != '=') with
  | [] => (name, Option.none)
  | _ :: value => (name, some (String.ofList value))

/-- The options after the given arguments. -/
def parseFrom (options : Options) : List String → Except Stop Options
  | [] => .ok options
  | argument :: rest =>
    match argument.toList with
    | ['-', '-'] => rest.foldlM applyFile options
    | '-' :: '-' :: long =>
      let (name, value) := splitLong long
      match Switch.ofLong? name, Setting.ofLong? name, value with
      | some switch, _, Option.none => do parseFrom (← applySwitch options switch) rest
      | some _, _, some _ => .error (.usage ("option '--" ++ name ++ "' takes no value"))
      | _, some setting, some value => do
        parseFrom (← applySetting options value setting) rest
      | _, some setting, Option.none =>
        match rest with
        | next :: rest =>
          if mayBeValue next then do parseFrom (← applySetting options next setting) rest
          else .error (.usage ("option '--" ++ name ++ "' needs a value"))
        | [] => .error (.usage ("option '--" ++ name ++ "' needs a value"))
      | _, _, _ => .error (.usage ("unknown option '--" ++ name ++ "'"))
    | '-' :: letter :: letters => do
      parseFrom (← applyShort options (letter :: letters)) rest
    | _ => do parseFrom (← applyFile options argument) rest

/-- Reads the arguments of the program. -/
def parse (arguments : List String) : Except Stop Options := parseFrom .none arguments

end CommandLine
end StackScript
