import LangServer.Json.Reader
import LangServer.Lint.Program
import LangServer.Lint.Report

/-!
# pylint

There are two ways to run pylint. With an executable in the settings it is a program that reads the
document and prints one finding a line. Otherwise it runs in the server, on the saved file only, and
answers in JSON; until the next save the last findings are shown again.
-/

namespace LangServer.Lint.Pylint

open Text

/-! ## Arguments -/

/-- The arguments in the settings. -/
def arguments (settings : Value) : Except Fault Value := do
  let args ← settings.get "args"
  return if args.isNull then .list [] else args

/-- The arguments in the settings, as one text. -/
def flags (settings : Value) : Except Fault String := do
  let args ← settings.get "args"
  if args.isNull then return ""
  else
    let parts ← (← args.elements).mapM (·.textOr .mismatch)
    return String.intercalate " " parts

/-! ## Findings by line -/

/-- How serious a finding is, by the first letter of its code. -/
def severityOfLetter? : Char → Option Severity
  | 'C' | 'I' => some .information
  | 'E' | 'F' => some .error
  | 'R' => some .hint
  | 'W' => some .warning
  | _ => none

/-- How serious a finding with a code is. -/
def severityOfCode : List Char → Except Fault Severity
  | [] => .error .outOfRange
  | c :: _ =>
    match severityOfLetter? c with
    | some s => .ok s
    | none => .error (.missingKey (.str (String.ofList [c])))

/-- The diagnostic for a finding. -/
def diagnostic (lines : Except Fault (List (List Char))) (f : Finding) : Except Fault Diagnostic := do
  let line := (← numeral f.line) - 1
  let column ← numeral f.column
  let severity ← severityOfCode f.code
  return {
    source := "pylint", line, column := .int column, endColumn := (← widthOf (← lines) line) - 1
    message := String.ofList f.message, severity, code := some (.str (String.ofList f.code)) }

/-- The mark after a code. -/
def mark : List Char := [':', ' ']

/-- The diagnostics in what pylint printed. -/
def diagnostics (lines : Except Fault (List (List Char))) (out : String) :
    Except Fault (List Diagnostic) :=
  (Finding.parseAll mark out.toList).mapM (diagnostic lines)

/-! ## Findings in JSON -/

/-- How serious a finding of a category is. -/
def severityOfCategory? : Value → Option Severity
  | .str "convention" => some .information
  | .str "error" | .str "fatal" => some .error
  | .str "refactor" => some .hint
  | .str "warning" => some .warning
  | _ => none

/-- How long a line is; an empty document has no lines to measure. -/
def widthOrZero (lines : List (List Char)) (line : Int) : Except Fault Int :=
  if lines.isEmpty then .ok 0 else widthOf lines line

/-- The diagnostic for a finding. An unknown category is taken to be as serious as the finding
before, whose severity is `last`. -/
def diagnosticOfJson (lines : Except Fault (List (List Char))) (last : Option Severity) (v : Value) :
    Except Fault Diagnostic := do
  let line := (← (← v.item "line").number) - 1
  let column ← v.item "column"
  let endColumn ← widthOrZero (← lines) line
  let severity := (severityOfCategory? (← v.item "type")).orElse fun _ => last
  let symbol ← v.item "symbol"
  let text ← v.item "message"
  match severity with
  | none => throw .unassigned
  | some severity =>
    return {
      source := "pylint", line, column, endColumn, severity
      message := "[" ++ symbol.display ++ "] " ++ text.display
      code := some (← v.item "message-id") }

/-- The diagnostics for findings in turn. -/
def diagnosticsOfJson (lines : Except Fault (List (List Char))) (last : Option Severity) :
    List Value → Except Fault (List Diagnostic)
  | [] => .ok []
  | v :: rest => do
    let d ← diagnosticOfJson lines last v
    return d :: (← diagnosticsOfJson lines (some d.severity) rest)

/-- The diagnostics in a JSON answer; a blank answer has none. -/
def decode (lines : Except Fault (List (List Char))) (out : String) :
    Except Fault (List Diagnostic) := do
  if (trim out.toList).isEmpty then return []
  match Json.parse? .message out.toList with
  | none => throw .badJson
  | some v => diagnosticsOfJson lines none (← v.elements)

/-! ## Linting -/

/-- The command line for the file. -/
def command (platform path flags : String) : String :=
  let path :=
    if "win".toList.isPrefixOf platform.toList then
      String.ofList (replace ['\\'] ['/'] path.toList)
    else path
  s!"{path} -f json {flags}"

/-- Lints the saved file in the server, or gives the last findings again. -/
def lintFile (isSaved : Bool) (flags : String) : Job (List Diagnostic) := do
  let d ← Job.document
  if !isSaved then
    return (Value.lookup d.path (← get).host.lastFindings).getD []
  Job.ask (.lint (command (← Job.machine).platform d.path flags))
  match (← Job.engines).linterFault with
  | some fault => throw fault
  | none =>
    let fs ← Job.files
    let found ← liftExcept (decode (d.lines fs) (← Job.engines).linter.out)
    modify fun desk => { desk with host := { desk.host with
      lastFindings := Value.insert d.path found desk.host.lastFindings } }
    return found

/-- Lints the document by the program. -/
def lintByProgram (program : Value) (args : Value) : Job (List Diagnostic) := do
  let d ← Job.document
  let args ← liftExcept args.elements
  let out ← run program "pylint" (args ++ [.str "--from-stdin", .str d.path])
  let fs ← Job.files
  liftExcept (diagnostics (d.lines fs) out)

/-- Lints the document. -/
def lint (c : Caller) (isSaved : Bool) : Job (List Diagnostic) := do
  let settings ← Host.pluginSettings c.config "pylint" .null
  let program ← liftExcept (settings.get "executable")
  if program.truthy then lintByProgram program (← liftExcept (arguments settings))
  else lintFile isSaved (← liftExcept (flags settings))

end LangServer.Lint.Pylint
