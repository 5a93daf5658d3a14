import LangServer.Path.Basic
import LangServer.Text.Lines
import LangServer.Fault

/-!
# A file system

The whole file system is a list of files with their texts. A directory is there when some file lies
below it. `nearest` looks for files by name from a directory upwards, and `dotted?` derives the
dotted name of a module from the package files around it.
-/

namespace LangServer

/-- Files by absolute path, with their texts. -/
structure Files where
  entries : List (String × String) := []
  deriving Inhabited

namespace Files

/-- Is there a file at the path?  A path with a slash at its end names no file. -/
def isFile (fs : Files) (p : List Char) : Bool :=
  !p.isEmpty && p.getLast? != some '/' &&
    fs.entries.any fun (name, _) => name == String.ofList (Path.location p)

/-- Is there a directory at the path? -/
def isDirectory (fs : Files) (p : List Char) : Bool :=
  let full := Path.location p
  !p.isEmpty && (full == ['/'] ||
    fs.entries.any fun (name, _) => (full ++ ['/']).isPrefixOf name.toList)

/-- Is there anything at the path? -/
def isThere (fs : Files) (p : List Char) : Bool := fs.isFile p || fs.isDirectory p

/-- The text of a file, every line end of it as a line feed. -/
def read (fs : Files) (p : String) : Except Fault String :=
  let full := String.ofList (Path.location p.toList)
  if fs.isFile p.toList then
    match fs.entries.find? fun (name, _) => name == full with
    | some (_, text) => .ok (String.ofList (Text.unifyEols text.toList))
    | none => .error (.noFile p)
  else if fs.isDirectory p.toList then .error (.isDirectory p)
  else .error (.noFile p)

/-- Adds a file or replaces its text. -/
def write (fs : Files) (p text : String) : Files := ⟨Value.insert p text fs.entries⟩

def remove (fs : Files) (p : String) : Files := ⟨Value.erase p fs.entries⟩

/-! ## Looking upwards -/

/-- The names that are there in a directory. -/
def present (fs : Files) (dir : List Char) (names : List String) : List (List Char) :=
  (names.map fun n => Path.join dir n.toList).filter fs.isThere

/-- Searches the directories spelled by the parts, then by ever fewer of them. The parts are given
in reverse, and the first nonempty find is the answer. -/
def searchUp (fs : Files) (names : List String) : List (List Char) → List (List Char)
  | [] => []
  | part :: rest =>
    match fs.present (Path.joinAll (part :: rest).reverse) names with
    | [] => searchUp fs names rest
    | found => found

/-- The files of the given names in the nearest directory that has any, from the directory of `path`
up to `root`. There are none without a root, or when the two share no beginning. -/
def nearest (fs : Files) (root path : String) (names : List String) : Except Fault (List String) :=
  match root.toList, path.toList with
  | r :: _, p :: _ =>
    if r ≠ p then .ok []
    else
      let dir := Path.dirname path.toList
      if dir.isEmpty then .error (.invalid "no path specified")
      else
        let chain := root.toList :: Path.relative dir root.toList
        .ok ((fs.searchUp names chain.reverse).map String.ofList)
  | _, _ => .ok []

/-! ## Module names -/

/-- The name of the file that makes a directory a package. -/
def packageFile : List Char := "__init__.py".toList

/-- Is a directory a package? -/
def isPackage (fs : Files) (dir : List Char) : Bool := fs.isThere (Path.join dir packageFile)

/-- Climbs from a directory for as long as it is a package, collecting the names on the way. The
answer is `none` when the climb has not ended after the given number of steps. -/
def climb (isPackage : List Char → Bool) :
    Nat → List Char → List (List Char) → Option (List (List Char))
  | 0, dir, names => if isPackage dir then none else some names
  | fuel + 1, dir, names =>
    if isPackage dir then climb isPackage fuel (Path.dirname dir) (Path.basename dir :: names)
    else some names

/-- The dotted name of the module in a file: its own name after those of the packages around it.
There is none when the outermost directory is itself a package, since the climb then never ends. -/
def dotted? (fs : Files) (path : String) : Option String :=
  let dir := Path.dirname path.toList
  (climb fs.isPackage (dir.length + 1) dir [Path.stem (Path.basename path.toList)]).map fun names =>
    String.ofList (List.intercalate ['.'] names)

end Files
end LangServer
