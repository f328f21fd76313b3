import Offload.Device.Kernel
import Offload.Text.Split

/-!
# Flags

A flag starts with one or two dashes. Its value follows an equals sign or is the next argument; a switch
needs none. Reading ends at the first argument that is no flag, or after two dashes on their own.
-/

namespace Offload.Command

inductive FlagKind where
  | switch
  | text
  | int
  | nat
  | level
  | severity
  | modules
  | position
  deriving DecidableEq, Repr

inductive FlagError where
  | form (arg : String)
  | unknown (name : String)
  | noValue (name : String)
  | value (name text : String)
  | help
  deriving DecidableEq, Repr

def FlagError.message : FlagError → String
  | form arg => "bad flag syntax: " ++ arg
  | unknown name => "flag provided but not defined: -" ++ name
  | noValue name => "flag needs an argument: -" ++ name
  | value name text => "invalid value " ++ Text.quote text ++ " for flag -" ++ name
  | help => "help requested"

def commandFlags : List (String × FlagKind) :=
  [("program", .text), ("pipeline", .text), ("rows", .int), ("cols", .int), ("dtype", .text),
    ("print-ir", .switch), ("check", .switch), ("verify-each", .switch), ("output", .text),
    ("tasklets", .int)]

def logFlags : List (String × FlagKind) :=
  [("add_dir_header", .switch), ("alsologtostderr", .switch), ("log_backtrace_at", .position),
    ("log_dir", .text), ("log_file", .text), ("log_file_max_size", .nat), ("logtostderr", .switch),
    ("one_output", .switch), ("skip_headers", .switch), ("skip_log_headers", .switch),
    ("stderrthreshold", .severity), ("v", .level), ("vmodule", .modules)]

def isLevel (text : String) : Bool :=
  match Text.parseInt text.toList with
  | .ok n => -2147483648 ≤ n && n < 2147483648
  | .error _ => false

def isModuleLevel (part : List Char) : Bool :=
  match Text.split '=' part with
  | [[], _] => false
  | [_, level] =>
    match Text.parseInt level with
    | .ok n => 0 ≤ n && n < 2147483648
    | .error _ => false
  | _ => false

/-- The level for the files that match a pattern of stars alone, which are all files. -/
def starLevel (text : String) : Int :=
  let levels := (Text.split ',' text.toList).filterMap fun part =>
    match Text.split '=' part with
    | [pattern, level] =>
      match Text.parseInt level with
      | .ok n => if pattern.all (· = '*') && 0 < n then some n else none
      | .error _ => none
    | _ => none
  levels.head?.getD 0

def isPosition (text : String) : Bool :=
  match Text.split ':' text.toList with
  | [[]] => true
  | [file, line] =>
    match Text.parseInt line with
    | .ok n => file.contains '.' && 0 < n
    | .error _ => false
  | _ => false

/-- The capital of a letter of a severity. Besides the small letters of ASCII, the dotless i and the long s
have such capitals. -/
def severityLetter (c : Char) : Char :=
  if c.toNat = 0x131 then 'I' else if c.toNat = 0x17F then 'S' else c.toUpper

def FlagKind.accepts : FlagKind → String → Bool
  | switch, given => (Text.parseBool? given).isSome
  | text, _ => true
  | int, given => (Text.parseIntLiteral? given.toList).isSome
  | nat, given => (Text.parseNatLiteral? given.toList).any (· < 18446744073709551616)
  | level, given => isLevel given
  | severity, given =>
    ["INFO", "WARNING", "ERROR", "FATAL"].contains (String.ofList (given.toList.map severityLetter)) ||
      isLevel given
  | modules, given => ((Text.split ',' given.toList).filter (!·.isEmpty)).all isModuleLevel
  | position, given => isPosition given

/-- An argument without its dashes, if it is a flag, or nothing if reading ends before it. -/
def flagBody? (arg : String) : Option (List Char) :=
  match arg.toList with
  | ['-', '-'] => none
  | '-' :: '-' :: body => some body
  | '-' :: c :: body => some (c :: body)
  | _ => none

def splitFlag (arg : String) (body : List Char) : Except FlagError (String × Option String) :=
  match body with
  | [] | '-' :: _ | '=' :: _ => .error (.form arg)
  | c :: cs =>
    let name := String.ofList (c :: cs.takeWhile (· ≠ '='))
    match cs.dropWhile (· ≠ '=') with
    | [] => .ok (name, none)
    | _ :: value => .ok (name, some (String.ofList value))

def valueOf (name : String) : Option String → List String → Except FlagError (String × List String)
  | some value, args => .ok (value, args)
  | none, value :: args => .ok (value, args)
  | none, [] => .error (.noValue name)

/-- Reads flags; each takes at least one of the arguments, so `fuel` is their number. -/
def parseFlagsFrom : Nat → List String → Except FlagError (List (String × String))
  | _, [] => .ok []
  | 0, _ => .ok []
  | fuel + 1, arg :: args =>
    match flagBody? arg with
    | none => .ok []
    | some body => do
      let (name, given) ← splitFlag arg body
      match (commandFlags ++ logFlags).lookup name with
      | none => throw (if name = "help" ∨ name = "h" then .help else .unknown name)
      | some kind =>
        let (value, args) ←
          if kind = .switch then pure (given.getD "true", args) else valueOf name given args
        if !kind.accepts value then throw (.value name value)
        return (name, value) :: (← parseFlagsFrom fuel args)

def parseFlags (args : List String) : Except FlagError (List (String × String)) :=
  parseFlagsFrom args.length args

structure Settings where
  program : String := "reduce"
  pipeline : String := ""
  rows : Int := 1024
  cols : Int := 256
  dtype : String := "Float32"
  printProgram : Bool := false
  check : Bool := false
  verifyEach : Bool := true
  output : String := ""
  tasklets : Int := Device.defaultTasklets
  logToTerminal : Bool := true
  logFile : String := ""
  verbosity : Int := 0
  fileVerbosity : Int := 0
  deriving DecidableEq, Repr

def Settings.set (s : Settings) (name value : String) : Settings :=
  let int (default : Int) := (Text.parseIntLiteral? value.toList).getD default
  let bool (default : Bool) := (Text.parseBool? value).getD default
  match name with
  | "program" => { s with program := value }
  | "pipeline" => { s with pipeline := value }
  | "rows" => { s with rows := int s.rows }
  | "cols" => { s with cols := int s.cols }
  | "dtype" => { s with dtype := value }
  | "print-ir" => { s with printProgram := bool s.printProgram }
  | "check" => { s with check := bool s.check }
  | "verify-each" => { s with verifyEach := bool s.verifyEach }
  | "output" => { s with output := value }
  | "tasklets" => { s with tasklets := int s.tasklets }
  | "logtostderr" => { s with logToTerminal := bool s.logToTerminal }
  | "log_file" => { s with logFile := value }
  | "v" => { s with verbosity := (Text.parseInt value.toList).toOption.getD s.verbosity }
  | "vmodule" => { s with fileVerbosity := starLevel value }
  | _ => s

def Settings.logPath? (s : Settings) : Option String :=
  if s.logToTerminal || s.logFile = "" then none else some s.logFile

def parseSettings (args : List String) : Except FlagError Settings := do
  return (← parseFlags args).foldl (fun s (name, value) => s.set name value) {}

end Offload.Command
