import LangServer.Host
import LangServer.Lint.Report

/-!
# mccabe

Functions whose cyclomatic complexity reaches a threshold get a warning.
-/

namespace LangServer.Lint.Mccabe

/-- The threshold when the settings have none. -/
def defaultThreshold : Int := 15

/-- The warning for a function, which ends where the line after its own does. -/
def diagnostic (lines : Except Fault (List (List Char))) (threshold : Value)
    (complexity line column : Int) : Except Fault Diagnostic := do
  return {
    source := "mccabe", line := line - 1, column := .int column
    endColumn := ← widthOf (← lines) line
    message := s!"Cyclomatic complexity too high: {complexity} (threshold {threshold.display})"
    severity := .warning }

/-- Does a complexity reach the threshold, which may be any number? -/
def reaches (complexity : Int) : Value → Except Fault Bool
  | .num .nan => .ok false
  | .num threshold => .ok (!threshold.exceeds complexity)
  | v => do return decide ((← v.number) ≤ complexity)

/-- The warnings for all functions. -/
def diagnostics (lines : Except Fault (List (List Char))) (threshold : Value) :
    List (Int × Int × Int) → Except Fault (List Diagnostic)
  | [] => .ok []
  | (complexity, line, column) :: rest => do
    if ← reaches complexity threshold then
      let d ← diagnostic lines threshold complexity line column
      return d :: (← diagnostics lines threshold rest)
    else diagnostics lines threshold rest

/-- Lints the document. There is no answer for a document that does not compile. -/
def lint (c : Caller) : Job (Option (List Diagnostic)) := do
  let d ← Job.document
  let settings ← Host.pluginSettings c.config "mccabe" (.str d.path)
  let threshold ← liftExcept (settings.getD "threshold" (.int defaultThreshold))
  let _ ← Job.held
  let engines ← Job.engines
  if engines.sourceIsBroken then return none
  let fs ← Job.files
  return some (← liftExcept (diagnostics (d.lines fs) threshold engines.complexities))

end LangServer.Lint.Mccabe
