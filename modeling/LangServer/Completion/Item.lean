import LangServer.Completion.Statement
import LangServer.Hover
import LangServer.Value.Gather

/-!
# Completion items

The items of a completion list that are made from names of the analysis engine. Label and snippet
come from the resolvers for the first few items; detail and documentation are added when an item is
resolved.
-/

namespace LangServer.Completion

/-- An item as members of an object. -/
abbrev Item := List (String × Value)

/-- Kinds of names, with the editor's numbers. -/
def kinds : List (String × Int) :=
  [("module", 9), ("namespace", 9), ("class", 7), ("instance", 18), ("function", 3), ("param", 6),
    ("path", 17), ("keyword", 14), ("property", 10), ("statement", 6)]

/-- The editor's number for a kind, null if it has none. -/
def kindValue (table : List (String × Int)) (kind : String) : Value :=
  match Value.lookup kind table with
  | some n => .int n
  | none => .null

def isHidden (name : String) : Bool := name.toList.head? == some '_'

/-- Hidden names come last. -/
def sortText (n : Name) : String := (if isHidden n.name then "z" else "a") ++ n.name

/-- Where a name comes from: the full name of what encloses it, or its own. -/
def detail (n : Name) : Except Fault String :=
  match n.parent with
  | .ok (some p) => .ok (p.fullName.getD "")
  | .ok none | .error .noMember => .ok (n.fullName.getD "")
  | .error f => .error f

/-- The documentation of a name, empty when it cannot be had. -/
def documentation (n : Name) : String :=
  match n.doc with
  | .ok doc => Text.keepIndent doc
  | .error _ => ""

/-- Adds detail and documentation to an item. -/
def resolveItem (item : Item) (n : Name) : Except Fault Item := do
  let item := Value.insert "detail" (.str (← detail n)) item
  return Value.insert "documentation" (.str (documentation n)) item

/-- A path as text to insert: tidy, with slashes escaped. -/
def pathText (name : String) : String :=
  let path := Text.replace ['\\'] ['\\', '\\'] (Path.normalize name.toList)
  String.ofList (Text.replace ['/'] ['\\', '/'] path)

/-- Asks a resolver about a name. -/
def askResolver (resolver : Host → Resolver) (store : Host → Resolver → Host) (n : Name) :
    Act Value := do
  let h ← get
  let (v, r, asked) ← liftExcept ((resolver h).get h.machine.time n)
  set (store h r)
  if asked then Host.ask (.signatures n.name)
  return v

/-- The label of a name, by the resolver if it is asked. -/
def itemLabel (ask : Bool) (n : Name) : Act String := do
  if !ask then return n.name
  match ← askResolver (·.labels) (fun h r => { h with labels := r }) n with
  | .str s => return if s.isEmpty then n.name else s
  | _ => return n.name

/-- The snippet of a name, as members of an item. -/
def itemSnippet (ask : Bool) (n : Name) : Act Item := do
  if !ask then return []
  match ← askResolver (·.snippets) (fun h r => { h with snippets := r }) n with
  | .object members => return members
  | _ => return []

/-- What is asked for when an item is made. -/
structure Wishes where
  snippet : Bool := true
  /-- Detail and documentation at once. -/
  eager : Bool := false
  /-- May the resolvers be asked? -/
  resolvers : Bool := false
  deriving DecidableEq, Repr, Inhabited

/-- The item for a name. The name of an exception gets no snippet. -/
def makeItem (n : Name) (w : Wishes) : Act Item := do
  let item : Item := [("label", .str (← itemLabel w.resolvers n)), ("kind", kindValue kinds n.kind),
    ("sortText", .str (sortText n)), ("insertText", .str n.name)]
  let item ← if w.eager then liftExcept (resolveItem item n) else pure item
  let item :=
    if n.kind = "path" then Value.insert "insertText" (.str (pathText n.name)) item else item
  let m := (← get).machine
  if w.snippet && !m.exceptionClasses.contains n.name then
    return Value.insertAll item (← itemSnippet w.resolvers n)
  else return item

/-- The item for a class as an object to be named rather than called. -/
def asObject (item : Item) : Item :=
  let item := Value.insert "kind" (.int 25) item
  match Value.lookup "label" item with
  | some (.str label) => Value.insert "label" (.str (label ++ " object")) item
  | _ => item

end LangServer.Completion
