import LangServer.Host
import LangServer.Lint.Report
import LangServer.Text.Template

/-!
# pyflakes

The checker reports unused and undefined names, errors in the syntax, and failures of its own.
-/

namespace LangServer.Lint.Pyflakes

/-- The kinds of findings that are errors; all others are warnings. -/
def errorKinds : List String :=
  ["UndefinedName", "UndefinedExport", "UndefinedLocal", "DuplicateArgument",
    "FutureFeatureNotDefined", "ReturnOutsideFunction", "YieldOutsideFunction",
    "ContinueOutsideLoop", "BreakOutsideLoop", "ContinueInFinally", "TwoStarredExpressions"]

/-- A number that is neither absent nor zero, or a default. -/
def orElse (n : Option Int) (default : Int) : Int :=
  match n with
  | some n => if n = 0 then default else n
  | none => default

/-- The diagnostic for a report. -/
def diagnostic (lines : List (List Char)) : Flake → Except Fault Diagnostic
  | .unexpected message =>
    .ok { source := "pyflakes", line := 0, column := .int 0, endColumn := 0, message,
          severity := .error }
  | .syntaxError _ _ _ none => .error .mismatch
  | .syntaxError message line offset (some text) =>
    let offset := orElse offset 0
    .ok { source := "pyflakes", line := orElse line 1 - 1, column := .int offset
          endColumn := offset + text.length, message, severity := .error }
  | .finding kind line column template args => do
    let endColumn ← widthOf lines (line - 1)
    return {
      source := "pyflakes", line := line - 1, column := .int column, endColumn
      message := String.ofList (← Text.fill template.toList args)
      severity := if errorKinds.contains kind then .error else .warning }

/-- Lints the document. -/
def lint : Job (List Diagnostic) := do
  let lines ← Job.lines
  let d ← Job.document
  Job.ask (.flakes (← Job.source) d.path)
  let found ← liftExcept (← Job.engines).flakes
  liftExcept (found.mapM (diagnostic lines))

end LangServer.Lint.Pyflakes
