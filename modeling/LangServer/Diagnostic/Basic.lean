import LangServer.Value.Access

/-!
# Diagnostics

A diagnostic is one finding of a linter, on one line of a document.
-/

namespace LangServer

/-- How serious a finding is. -/
inductive Severity where
  | error
  | warning
  | information
  | hint
  deriving DecidableEq, Repr, Inhabited

/-- The number of a severity in the editor protocol. -/
def Severity.number : Severity → Int
  | error => 1
  | warning => 2
  | information => 3
  | hint => 4

/-- A finding on one line. Lines and columns count from zero. -/
structure Diagnostic where
  source : String
  line : Int
  column : Value
  endColumn : Int
  message : String
  severity : Severity
  code : Option Value := none
  deriving DecidableEq, Repr, Inhabited

/-- A position for the editor. -/
def Value.position (line : Int) (character : Value) : Value :=
  .object [("line", .int line), ("character", character)]

/-- A range for the editor. -/
def Value.range (start stop : Value) : Value := .object [("start", start), ("end", stop)]

namespace Diagnostic

/-- A diagnostic for the editor. -/
def toValue (d : Diagnostic) : Value :=
  .object ([("source", .str d.source),
    ("range", .range (.position d.line d.column) (.position d.line (.int d.endColumn))),
    ("message", .str d.message), ("severity", .int d.severity.number)] ++
    match d.code with
    | some code => [("code", code)]
    | none => [])

end Diagnostic
end LangServer
