import LangServer.Document.Basic
import LangServer.Path.Parts
import LangServer.Settings.Config

/-!
# Workspaces

A workspace is a folder of the editor with its configuration, the documents that are open in it, and
what engines keep for it. A document belongs to the workspace whose URI shares the most parts with
its own (`nearest?`).
-/

namespace LangServer

/-- A folder of the editor. -/
structure Workspace where
  rootUri : String
  scheme : String
  rootPath : String
  config : Option Config := none
  /-- The open documents by URI, in the order in which they were opened. -/
  documents : List (String × Document) := []
  /-- The environments that were made, by their paths. -/
  environments : List Value := []
  /-- Has the refactoring engine opened a project? -/
  hasProject : Bool := false
  deriving Inhabited

namespace Workspace

/-- A workspace for a URI. -/
def create (m : Machine) (rootUri : String) (config : Option Config) : Except Fault Workspace := do
  let parts ← Uri.parse rootUri.toList
  return { rootUri, scheme := String.ofList parts.scheme, rootPath := ← m.pathOf rootUri, config }

/-- Is the folder on this machine? -/
def isLocal (m : Machine) (w : Workspace) : Bool :=
  (w.scheme.isEmpty || w.scheme == "file") && m.files.isThere w.rootPath.toList

/-- The elements of a list that are not in it before. -/
def unique : List String → List String
  | [] => []
  | x :: xs => x :: (unique xs).filter (· != x)

/-- The directories in which the project around a path keeps its sources. -/
def sourceRoots (m : Machine) (w : Workspace) (path : String) : Except Fault (List String) := do
  let found ← m.files.nearest w.rootPath path ["setup.py", "pyproject.toml"]
  match unique (found.map fun f => String.ofList (Path.dirname f.toList)) with
  | [] => return [w.rootPath]
  | dirs => return dirs

/-- A document with given directories to search for modules, made in the workspace with the number
`home`. -/
def document (m : Machine) (home : Nat) (uri : String) (source : Content) (version : Value)
    (searchPath : List String) : Except Fault Document := do
  let path ← m.pathOf uri
  match m.files.dotted? path with
  | none => throw (.reported "EndlessSearch" "")
  | some dotName =>
    return {
      uri, version, path, dotName, source, searchPath, home
      filename := String.ofList (Path.basename path.toList) }

/-- A new document of the workspace, which has the number `home`. -/
def newDocument (m : Machine) (w : Workspace) (home : Nat) (uri : String)
    (source : Content) (version : Value) : Except Fault Document := do
  document m home uri source version (← w.sourceRoots m (← m.pathOf uri))

/-- How many parts two lists of parts have in common, place by place. -/
def agreement : List (List Char) → List (List Char) → Nat
  | a :: as, b :: bs => (if a == b then 1 else 0) + agreement as bs
  | _, _ => 0

/-- The one of `folders` that agrees best with a URI.  A folder with more parts than the URI is
passed over, and so is one that agrees nowhere; of equals the first is taken. -/
def nearestFrom (uri : List (List Char)) (best : Option (Nat × String)) :
    List String → Option (Nat × String)
  | [] => best
  | folder :: rest =>
    let parts := Path.parts folder.toList
    let n := agreement parts uri
    let better :=
      decide (parts.length ≤ uri.length) && decide (0 < n) &&
        match best with
        | some (m, _) => decide (m < n)
        | none => true
    nearestFrom uri (if better then some (n, folder) else best) rest

/-- The folder that a document belongs to. -/
def nearest? (uri : String) (folders : List String) : Option String :=
  (nearestFrom (Path.parts uri.toList) none folders).map (·.2)

end Workspace
end LangServer
