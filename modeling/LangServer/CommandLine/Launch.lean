import LangServer.CommandLine.Scan
import LangServer.Files
import LangServer.Json.Reader
import LangServer.Version

/-!
# Launching the server

The command line of the server says over what it talks to its client, and where and how much it logs.
`launch` lists what is done, in order; reading and serving themselves are left to others.
-/

namespace LangServer.CommandLine

/-- How a program ends that does not get to its work: with a code, and with what it prints. -/
structure Exit where
  code : Nat
  out : String := ""
  err : String := ""
  deriving DecidableEq, Repr, Inhabited

/-- A problem with the command line ends a program. -/
def Exit.ofProblem (g : Grammar) (p : Problem) : Exit :=
  ⟨2, "", g.program ++ ": error: " ++ p.message⟩

namespace Launch

/-- The command line of the server. -/
def grammar : Grammar where
  program := "pylsp"
  switches := [
    ⟨["-h", "--help"], false⟩,
    ⟨["--tcp"], false⟩,
    ⟨["--host"], true⟩,
    ⟨["--port"], true⟩,
    ⟨["--check-parent-process"], false⟩,
    ⟨["--log-config"], true⟩,
    ⟨["--log-file"], true⟩,
    ⟨["-v", "--verbose"], false⟩,
    ⟨["-V", "--version"], false⟩]

/-- What the command line asks for. -/
structure Options where
  overNetwork : Bool := false
  host : Value := .str "127.0.0.1"
  port : Value := .int 2087
  checksParent : Bool := false
  logConfig : Option Value := none
  logFile : Option Value := none
  verbosity : Nat := 0
  deriving Inhabited

/-- An argument as a value. An argument that came to nothing is an empty list. -/
def valueOrEmpty (value : Option String) : Value := value.elim (.list []) .str

/-- A port, which is a number. -/
def readPort (title : String) : Option String → Except Exit Value
  | none => .ok (.list [])
  | some text =>
    match Text.readInt text.toList with
    | some n => .ok (.int n)
    | none =>
      .error (.ofProblem grammar (.badValue title ("invalid int value: " ++ Text.quote text)))

/-- Takes an argument into account. Of the two ways to log only one can be chosen. -/
def Options.take (o : Options) (t : Taken) : Except Exit Options :=
  match t.title with
  | "-h/--help" => .error ⟨0, "", ""⟩
  | "-V/--version" => .error ⟨0, grammar.program ++ " v" ++ Version.current ++ "\n", ""⟩
  | "--tcp" => .ok { o with overNetwork := true }
  | "--host" => .ok { o with host := valueOrEmpty t.value }
  | "--port" => do return { o with port := ← readPort t.title t.value }
  | "--check-parent-process" => .ok { o with checksParent := true }
  | "--log-config" =>
    if o.logFile.isSome then .error (.ofProblem grammar (.conflict t.title "--log-file"))
    else .ok { o with logConfig := some (valueOrEmpty t.value) }
  | "--log-file" =>
    if o.logConfig.isSome then .error (.ofProblem grammar (.conflict t.title "--log-config"))
    else .ok { o with logFile := some (valueOrEmpty t.value) }
  | _ => .ok { o with verbosity := o.verbosity + 1 }

/-- The options of a command line. -/
def Options.ofArguments (arguments : List String) : Except Exit Options := do
  let s := grammar.scan arguments
  let o ← s.taken.foldlM Options.take {}
  match s.problem with
  | some p => .error (.ofProblem grammar p)
  | none => .ok o

/-- How much is logged. -/
inductive Level where
  | warning
  | info
  | debug
  deriving DecidableEq, Repr, Inhabited

/-- The level for a number of requests to say more. -/
def Level.ofVerbosity : Nat → Level
  | 0 => warning
  | 1 => info
  | _ => debug

/-- Where the log goes. -/
inductive LogTarget where
  | errorStream
  | rotatingFile
  deriving DecidableEq, Repr, Inhabited

/-- A step of the launch. -/
inductive Step where
  /-- Logging is set up as a file says. -/
  | configureLog (settings : Value)
  | openLog (path : String)
  | serveStreams (checksParent : Bool)
  | serveNetwork (host port : Value) (checksParent : Bool)
  deriving Inhabited

/-- What a log file may grow to, in bytes, before a new one is begun. -/
def logFileLimit : Nat := 50 * 1024 * 1024

/-- How many full log files are kept. -/
def logFilesKept : Nat := 10

/-- What happened in a launch, and how logging is set up after it. -/
structure Report where
  steps : List Step := []
  level : Level := .warning
  targets : List LogTarget := []
  fault : Option Fault := none
  deriving Inhabited

/-- The value of an option that is not empty. -/
def given? (v : Option Value) : Option String :=
  match v with
  | some (.str s) => if s.isEmpty then none else some s
  | _ => none

/-- Sets up logging. A file with settings replaces all else. -/
def setUpLog (fs : Files) (o : Options) : Report :=
  let level := Level.ofVerbosity o.verbosity
  match given? o.logConfig, given? o.logFile with
  | some path, _ =>
    match fs.read path with
    | .error f => { fault := some f }
    | .ok text =>
      match Json.parse? .message text.toList with
      | none => { fault := some .badJson }
      | some settings => { steps := [.configureLog settings], level }
  | none, some path => { steps := [.openLog path], level, targets := [.rotatingFile] }
  | none, none => { level, targets := [.errorStream] }

/-- Launches the server: logging first, then the connection. -/
def launch (fs : Files) (arguments : List String) : Except Exit Report := do
  let o ← Options.ofArguments arguments
  let r := setUpLog fs o
  if r.fault.isSome then return r
  let connection : Step :=
    if o.overNetwork then .serveNetwork o.host o.port o.checksParent
    else .serveStreams o.checksParent
  return { r with steps := r.steps ++ [connection] }

end Launch
end LangServer.CommandLine
