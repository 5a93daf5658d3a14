import LangServer.Host
import LangServer.Lint.Report

/-!
# pycodestyle

Findings about style. The style guide that the engine makes of the options says which codes are
ignored.
-/

namespace LangServer.Lint.Pycodestyle

/-- Errors and warnings of style are warnings; all else is information. -/
def severity : List Char → Except Fault Severity
  | [] => .error .outOfRange
  | c :: _ => .ok (if c = 'E' ∨ c = 'W' then .warning else .information)

/-- The end of a finding: the end of its line, or far to the right past the last line. -/
def endColumn (lines : List (List Char)) (line : Int) : Except Fault Int :=
  if (lines.length : Int) < line then .ok 100 else widthOf lines (line - 1)

/-- The diagnostic for a finding, unless it is ignored or expected. -/
def diagnostic (ignores : String → Reply Bool) (expected : List String) (lines : List (List Char))
    (line offset : Int) (text : String) : Except Fault (Option Diagnostic) := do
  let code := text.toList.take 4
  if ← ignores (String.ofList code) then return none
  if expected.contains (String.ofList code) then return none
  let endColumn ← endColumn lines line
  return some {
    source := "pycodestyle", line := line - 1, column := .int offset, endColumn, message := text
    severity := ← severity code, code := some (.str (String.ofList code)) }

/-- The options for the checker: those of the settings that say something. -/
def options (settings : Value) : Except Fault (List (String × Value)) := do
  let exclude ← settings.get "exclude"
  let filename ← settings.get "filename"
  let hangClosing ← settings.get "hangClosing"
  let ignore ← settings.get "ignore"
  let maxLineLength ← settings.get "maxLineLength"
  let indentSize ← settings.get "indentSize"
  let select ← settings.get "select"
  return [("exclude", exclude), ("filename", filename), ("hang_closing", hangClosing),
    ("ignore", ignore), ("max_line_length", maxLineLength), ("indent_size", indentSize),
    ("select", select)].filter fun (_, v) => v.truthy

/-- Lints the document. -/
def lint (c : Caller) : Job (List Diagnostic) := do
  let d ← Job.document
  let settings ← Host.pluginSettings c.space "pycodestyle" (.str d.path)
  let options ← liftExcept (options settings)
  Job.ask (.styleGuide options)
  let engines ← Job.engines
  let ignores ← liftExcept (engines.styleGuide options)
  let lines ← Job.lines
  let found ← liftExcept engines.style
  let kept ← found.mapM fun (line, offset, text) =>
    liftExcept (diagnostic ignores engines.styleExpected lines line offset text)
  return kept.filterMap id

end LangServer.Lint.Pycodestyle
