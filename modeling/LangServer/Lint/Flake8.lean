import LangServer.Lint.Program
import LangServer.Lint.Report

/-!
# flake8

The settings become command-line options; what flake8 prints becomes diagnostics. Codes to ignore can
be given for single files as `pattern:code,code`; those that apply to the document are added to the
list of ignored codes.
-/

namespace LangServer.Lint.Flake8

open Text

/-! ## Options -/

/-- One option on the command line. A false option leaves a gap. -/
def option (name : String) : Value → Except Fault Value
  | .list items => do
    let parts ← items.mapM (·.textOr .mismatch)
    return .str ("--" ++ name ++ "=" ++ String.intercalate "," parts)
  | .bool true => .ok (.str ("--" ++ name))
  | .bool false => .ok .null
  | v => .ok (.str ("--" ++ name ++ "=" ++ v.display))

/-- The options on the command line; null options are left out. The source comes from the standard
input. -/
def options (opts : List (String × Value)) : Except Fault (List Value) := do
  let given := opts.filter fun (_, v) => !v.isNull
  return .str "-" :: (← given.mapM fun (name, v) => option name v)

/-! ## Codes to ignore -/

/-- Characters that cannot be part of a list of codes. -/
def isForeign (c : Char) : Bool := !(isAsciiWord c || c == ',')

/-- What follows a remark: the remark ends with its line and the characters after it that are not part
of a word. -/
def afterRemark (s : List Char) : List Char :=
  (s.dropWhile (· != '\n')).dropWhile fun c => !isWord c

/-- A list of codes without remarks. A remark begins with foreign characters among which is a
semicolon. -/
def withoutRemarks : Nat → List Char → List Char
  | 0, s => s
  | _, [] => []
  | fuel + 1, c :: rest =>
    let s := c :: rest
    if isForeign c then
      let lead := s.takeWhile isForeign
      match cutLast? ';' lead with
      | some (front, _) => withoutRemarks fuel (afterRemark (s.drop (front.length + 1)))
      | none => lead ++ withoutRemarks fuel (s.dropWhile isForeign)
    else c :: withoutRemarks fuel rest

/-- An argument for the command line: the list of ignored codes goes without remarks. -/
def cleanArgument (arg : String) : String :=
  if "--ignore=".toList.isPrefixOf arg.toList then
    String.ofList (withoutRemarks (arg.length + 1) arg.toList)
  else arg

/-- The arguments without gaps. -/
def cleanArguments (args : List Value) : Except Fault (List Value) :=
  (args.filter (!·.isNull)).mapM fun a => do return .str (cleanArgument (← a.text))

/-- A pattern for files and the codes to ignore in them. -/
def fileIgnores (entry : String) : Except Fault (List Char × List (List Char)) :=
  match splitOn ':' entry.toList with
  | [pattern, codes] => .ok (pattern, splitOn ',' codes)
  | parts => .error (.wrongCount 2 parts.length)

/-- The codes of an entry that apply to a path, if its pattern fits. -/
def fileIgnoresFor (path : String) (entry : Value) : Except Fault (Option (List Value)) := do
  let (pattern, codes) ← fileIgnores (← entry.text)
  match Path.fits? pattern path.toList with
  | none => throw (.invalid "empty pattern")
  | some false => return none
  | some true => return some (codes.map fun c => .str (String.ofList c))

/-- Adds the codes that apply to the document. The list grows in the settings themselves. -/
def addFileIgnores (home : Nat) (path : String) (ignores : Value) : List Value → Act Value
  | [] => return ignores
  | entry :: rest => do
    match ← liftExcept (fileIgnoresFor path entry) with
    | none => addFileIgnores home path ignores rest
    | some codes =>
      match ignores with
      | .list items =>
        Host.extendIgnores home (.named (.str path)) codes
        addFileIgnores home path (.list (items ++ codes)) rest
      | _ => throw .noMember

/-! ## The command line -/

/-- The absolute path of a settings file. -/
def absoluteConfig (config : Value) : Except Fault Value :=
  if !config.truthy then .ok config
  else
    match config with
    | .str s =>
      if Path.isAbsolute s.toList then .ok config
      else .ok (.str (String.ofList (Path.resolve s.toList)))
    | _ => .error .mismatch

/-- The program to run. What looks like a path, and is no file as it is, is resolved. -/
def executable (fs : Files) : Value → Except Fault Value
  | .str s =>
    if !fs.isFile s.toList && s.toList.contains '/' then
      .ok (.str (String.ofList (Path.resolve s.toList)))
    else .ok (.str s)
  | _ => .error .mismatch

/-- The codes to ignore in a document: those of the settings, and those that apply to its path. -/
def ignored (home : Nat) (path : String) (settings : Value) : Act Value := do
  let ignores ← liftExcept (settings.getD "ignore" (.list []))
  let entries ← liftExcept (settings.get "perFileIgnores")
  if entries.truthy then addFileIgnores home path ignores (← liftExcept entries.elements)
  else return ignores

/-- The program and its arguments, for the codes to ignore. -/
def commandLine (settings ignores : Value) : Except Fault (Value × List Value) := do
  let config ← settings.get "config"
  let exclude ← settings.get "exclude"
  let filename ← settings.get "filename"
  let hangClosing ← settings.get "hangClosing"
  let maxLineLength ← settings.get "maxLineLength"
  let indentSize ← settings.get "indentSize"
  let select ← settings.get "select"
  let config ← absoluteConfig config
  let program ← settings.getD "executable" (.str "flake8")
  let args ← options [("config", config), ("exclude", exclude), ("filename", filename),
    ("hang-closing", hangClosing), ("ignore", if ignores.truthy then ignores else .null),
    ("max-line-length", maxLineLength), ("indent-size", indentSize), ("select", select)]
  return (program, args)

/-- The program and its arguments for a document, by the configuration of a workspace. -/
def prepare (home : Nat) (path : String) : Act (Value × List Value) := do
  let settings ← Host.pluginSettings home "flake8" (.str path)
  let ignores ← ignored home path settings
  liftExcept (commandLine settings ignores)

/-! ## Running -/

/-- Runs flake8 on the document. -/
def runOn (program : Value) (args : List Value) : Job String := do
  let args ← liftExcept (cleanArguments args)
  let program ← liftExcept (executable (← Job.files) program)
  run program "flake8" args

/-- The diagnostic for a finding. -/
def diagnostic (lines : List (List Char)) (f : Finding) : Except Fault Diagnostic := do
  let line := (← numeral f.line) - 1
  let column := (← numeral f.column) - 1
  let code := String.ofList f.code
  return {
    source := "flake8", line, column := .int column, endColumn := ← widthOf lines line
    message := code ++ " " ++ String.ofList f.message, severity := .warning, code := some (.str code) }

/-- The mark after a code. -/
def mark : List Char := [' ']

/-- The diagnostics in what flake8 printed. -/
def diagnostics (lines : Except Fault (List (List Char))) (out : String) :
    Except Fault (List Diagnostic) :=
  (Finding.parseAll mark out.toList).mapM fun f => do
    let _ ← numeral f.line
    let _ ← numeral f.column
    diagnostic (← lines) f

/-- Lints the document. -/
def lint (c : Caller) : Job (List Diagnostic) := do
  let d ← Job.document
  let (program, args) ← prepare c.space d.path
  let out ← runOn program args
  let fs ← Job.files
  liftExcept (diagnostics (d.lines fs) out)

end LangServer.Lint.Flake8
