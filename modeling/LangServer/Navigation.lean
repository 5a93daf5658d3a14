import LangServer.Engine.Script

/-!
# Definitions, references and highlights

Where a name is defined, where it is used, and where it is used in the same document. An engine
counts lines from one, the editor from zero.
-/

namespace LangServer.Navigation

/-- The range of a name in its line. It is a mismatch when the engine gave no place for it. -/
def range (n : Name) : Except Fault Value :=
  match n.line, n.column with
  | some line, some column =>
    let stop := column + (n.name.length : Int)
    .ok (.range (.position (line - 1) (.int column)) (.position (line - 1) (.int stop)))
  | _, _ => .error .mismatch

/-- Has the name a place in a file that is not built in? -/
def isPlaced (n : Name) : Bool :=
  n.line.isSome && n.column.isSome && n.modulePath.isSome && !n.inBuiltinModule

/-- The place of a name: the URI of its file, and its range. -/
def location (m : Machine) (uri : String) (n : Name) : Except Fault Value := do
  let uri ←
    match n.modulePath with
    | some path => m.uriWith uri path
    | none => pure uri
  return .object [("uri", .str uri), ("range", ← range n)]

/-- Where the name at a position is defined. -/
def definitions (c : Caller) (position : Value) : Job Value := do
  let settings ← Host.pluginSettings c.config "jedi_definition" .null
  let place ← Job.place position
  Engine.load true .null
  let imports ← liftExcept (settings.getD "follow_imports" (.bool true))
  let builtins ← liftExcept (settings.getD "follow_builtin_imports" (.bool true))
  Job.ask (.ask "goto" ([("follow_imports", imports), ("follow_builtin_imports", builtins)] ++ place))
  let found ← liftExcept (← Job.engines).definitions
  let d ← Job.document
  let m ← Job.machine
  let kept := found.filter fun n => n.isDefinition && isPlaced n
  return .list (← kept.mapM fun n => liftExcept (location m d.uri n))

/-- Where the name at a position is used. -/
def references (position : Value) (excludeDeclaration : Bool) : Job Value := do
  let place ← Job.place position
  let used ← Engine.query false "get_references" place (·.references)
  let d ← Job.document
  let m ← Job.machine
  let kept := used.filter fun n => !(excludeDeclaration && n.isDefinition) && !n.inBuiltinModule
  return .list (← kept.mapM fun n => liftExcept (location m d.uri n))

/-- The kind of a highlight: a write where the name is defined, else a read. -/
def highlightKind (n : Name) : Int := if n.isDefinition then 3 else 2

/-- Where the name at a position is used in the same document. -/
def highlights (position : Value) : Job Value := do
  let place ← Job.place position
  let used ← Engine.query false "get_references" place (·.references)
  let d ← Job.document
  let kept := used.filter fun n =>
    n.line.isSome && n.column.isSome &&
      match n.modulePath with
      | some path => path == d.path
      | none => true
  return .list (← kept.mapM fun n => do
    return .object [("range", ← liftExcept (range n)), ("kind", .int (highlightKind n))])

end LangServer.Navigation
