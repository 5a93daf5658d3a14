import LangServer.Host

/-!
# Loading a document into the analysis engine

Before the engine can be asked about a document, the document's text is loaded together with the
directories in which modules are searched. The settings may name an environment, more directories
and environment variables; the engine cannot work with one of these variables, so it is taken out.
-/

namespace LangServer.Engine

/-- The variable that the engine cannot work with. -/
def badVariable : String := "PYTHONPATH"

/-- The variables of the process, without the bad one. -/
def processVariables : Value :=
  .object [("HOME", .str (String.ofList Path.home)), ("PATH", .str "/usr/bin")]

/-- Makes the environment with a path in a workspace, unless it was made before. Null stands for the
default environment, which is always there. -/
def ensureEnvironment (home : Nat) (path vars : Value) : Act Unit := do
  if path.isNull then return ()
  if !path.isHashable then throw .mismatch
  let w ← Host.space home
  if w.environments.any (path.alike ·) then return ()
  Host.ask (.createEnvironment path vars)
  match (← get).engines.environment with
  | some f => throw f
  | none => Host.setSpace home { w with environments := w.environments ++ [path] }

/-- The directories in which the modules of a document are searched. -/
def searchPath (d : Document) (environment vars : Value) : Act (List Value) := do
  ensureEnvironment d.home environment vars
  return d.searchPath.map .str ++ (← get).engines.searchPath

/-- The settings of the engine: environment, more directories, environment variables. -/
def engineSettings (d : Document) : Act (Value × Value × Value) := do
  let w ← Host.space d.home
  if w.config.isNone then return (.null, .null, .null)
  let settings ← Host.pluginSettings d.home "jedi" (.str d.path)
  let environment ← liftExcept (settings.get "environment")
  let extra ← liftExcept (settings.get "extra_paths")
  let vars ← liftExcept (settings.get "env_vars")
  return (environment, extra, vars)

/-- The environment variables for the engine, without the bad one. -/
def engineVariables (d : Document) (vars : Value) : Act Value := do
  match vars with
  | .null => return processVariables
  | .object members =>
    Host.dropVariable d.home badVariable
    return .object (Value.erase badVariable members)
  | .list _ => throw .mismatch
  | _ => throw .noMember

/-- More directories to search, as they are set. -/
def extraPaths (extra : Value) : Except Fault (List Value) :=
  if !extra.truthy then .ok []
  else
    match extra with
    | .list items => .ok items
    | _ => .error .mismatch

/-- Loads the document. A position may not be given. -/
def load (useDocumentPath : Bool) (position : Value) : Job Unit := do
  let d ← Job.document
  let (environment, extra, vars) ← engineSettings d
  let vars ← engineVariables d vars
  if environment.truthy then ensureEnvironment d.home environment vars
  let path ← searchPath d environment vars
  let path := path ++ (← liftExcept (extraPaths extra))
  let directory := String.ofList (Path.normalize (Path.dirname d.path.toList))
  let path := if useDocumentPath then path ++ [.str directory] else path
  let code ← Job.held
  let w ← Host.space d.home
  if position.truthy then
    let _ ← Job.place position
    throw .mismatch
  Job.ask (.script code d.path (if environment.truthy then environment else .null) w.rootPath path)

/-- Loads the document and asks a question about it. -/
def query {α : Type} (useDocumentPath : Bool) (question : String) (args : List (String × Value))
    (answer : Engines → Reply α) : Job α := do
  load useDocumentPath .null
  Job.ask (.ask question args)
  liftExcept (answer (← Job.engines))

/-- The names in the document. -/
def names (allScopes definitions references : Value) : Job (List Name) :=
  query false "get_names"
    [("all_scopes", allScopes), ("definitions", definitions), ("references", references)] (·.names)

end LangServer.Engine
