import LangServer.Host

/-!
# Projects of the refactoring engine

The refactoring engine works on a project, which a workspace opens when it is first needed and again
whenever the settings say anything about it. An open project is validated before every use.
-/

namespace LangServer.Refactoring

/-- Does a workspace have to open its project for these settings?  A project that is open serves only
requests without settings. -/
def needsProject (hasProject : Bool) (settings : Value) : Bool := !hasProject || !settings.isNull

/-- Opens a project for a workspace, by the settings of the engine. -/
def openProject (home : Nat) (settings : Value) : Act Unit := do
  let folder ← liftExcept (settings.get "ropeFolder")
  let w ← Host.space home
  Host.ask (.openProject w.rootPath folder)
  Host.setSpace home { w with hasProject := true }
  let modules ← liftExcept (settings.getD "extensionModules" (.list []))
  Host.ask (.setPreference "extension_modules" modules)
  Host.ask (.setPreference "ignore_syntax_errors" (.bool true))
  Host.ask (.setPreference "ignore_bad_imports" (.bool true))

/-- Makes the project of a workspace ready. -/
def ensureProject (home : Nat) (settings : Value) : Act Unit := do
  let w ← Host.space home
  if needsProject w.hasProject settings then openProject home settings
  Host.ask .validate

/-- The engine's settings for the document. -/
def settings (c : Caller) : Job Value := do
  let d ← Job.document
  let all ← Host.settings c.config (.named (.str d.path))
  liftExcept (all.getD "rope" (.object []))

/-- The document as a file of the project. -/
def checkResource : Job Unit := do
  match (← Job.engines).resource with
  | some f => throw f
  | none => return ()

end LangServer.Refactoring
