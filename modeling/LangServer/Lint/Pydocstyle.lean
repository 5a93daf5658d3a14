import LangServer.Host
import LangServer.Lint.Pattern

/-!
# pydocstyle

Findings about documentation. Only files are checked whose name and directory fit the patterns of the
settings.
-/

namespace LangServer.Lint.Pydocstyle

open Text

/-- Names of files that are checked, unless the settings say otherwise. -/
def defaultMatch : String := "(?!test_).*\\.py"

/-- Names of directories that are checked, unless the settings say otherwise. -/
def defaultMatchDir : String := "[^\\.].*"

/-- Does a name fit the pattern in the settings? -/
def matchesName (pattern : Value) (name : List Char) : Except Fault Bool := do
  match fitsPattern? (← pattern.textOr .mismatch).toList name with
  | some fits => return fits
  | none => throw .badPattern

/-- An option with a list of codes. -/
def listOption (name : String) (codes : Value) : Except Fault String := do
  let parts ← (← codes.elements).mapM (·.textOr .mismatch)
  return name ++ String.intercalate "," parts

/-- The options of the settings: a convention with its exceptions, or selected codes, or ignored
codes. -/
def options (settings : Value) : Except Fault (List String) := do
  let convention ← settings.get "convention"
  let select ← settings.get "select"
  let ignore ← settings.get "ignore"
  if convention.truthy then
    let convention ← convention.textOr .mismatch
    let more ← settings.get "addSelect"
    let fewer ← settings.get "addIgnore"
    let more ← if more.truthy then do pure [← listOption "--add-select=" more] else pure []
    let fewer ← if fewer.truthy then do pure [← listOption "--add-ignore=" fewer] else pure []
    return ("--convention=" ++ convention) :: (more ++ fewer)
  else if select.truthy then return [← listOption "--select=" select]
  else if ignore.truthy then return [← listOption "--ignore=" ignore]
  else return []

/-- The diagnostic for a finding. Its columns are those of the first line. -/
def diagnostic (lines : Except Fault (List (List Char))) (start : Int) (code message : String) :
    Except Fault Diagnostic := do
  let line := (← lines).headD []
  return {
    source := "pydocstyle", line := start - 1
    column := .int ((line.length : Int) - ((trimStart line).length : Int)), endColumn := line.length
    message, severity := .warning, code := some (.str code) }

/-- Lints the document. -/
def lint (c : Caller) : Job (List Diagnostic) := do
  let d ← Job.document
  let settings ← Host.pluginSettings c.config "pydocstyle" (.str d.path)
  let pattern ← liftExcept (settings.getD "match" (.str defaultMatch))
  if !(← liftExcept (matchesName pattern (Path.basename d.path.toList))) then return []
  let pattern ← liftExcept (settings.getD "matchDir" (.str defaultMatchDir))
  if !(← liftExcept (matchesName pattern (Path.basename (Path.dirname d.path.toList)))) then
    return []
  Job.ask (.docstyle (d.path :: (← liftExcept (options settings))))
  let _ ← Job.held
  let fs ← Job.files
  let engines ← Job.engines
  let checked := engines.docstyle.filter fun (_, code, _) => engines.docstyleCodes.contains code
  liftExcept (checked.mapM fun (start, code, message) => diagnostic (d.lines fs) start code message)

end LangServer.Lint.Pydocstyle
