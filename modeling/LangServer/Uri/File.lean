import LangServer.Uri.Percent
import LangServer.Uri.Split

/-!
# URIs and file paths

`toPath` and `ofPath` go between the URI of a document and the path of its file. A path that begins
with two slashes names a host, and a drive letter is written in lower case. With `backslashes`, the
separator of paths is the backslash. A path is any sequence of code points, but one that holds a
lone surrogate has no URI.
-/

namespace LangServer.Uri

open Text (Point points)

/-- The parts of a URI, decoded. -/
def parse (uri : List Char) : Except Fault (Parts Char) := do
  let p ← split uri
  return {
    scheme := unquote p.scheme
    authority := unquote p.authority
    path := unquote p.path
    params := unquote p.params
    query := unquote p.query
    fragment := unquote p.fragment }

/-- The letter of a drive, for a path that begins with a slash, a letter and a colon, and what comes
after it. -/
def cutDrive? : List Point → Option (Char × List Point)
  | .char '/' :: .char letter :: .char ':' :: rest =>
    if letter.isAlpha then some (letter, rest) else none
  | _ => none

/-- Does a path begin with a slash, a letter and a colon? -/
def hasDrive (path : List Char) : Bool := (cutDrive? (points path)).isSome

/-- The percent encoding of a path. The colon of a drive letter stays as it is. -/
def quotePath (path : List Point) : Except Fault (List Char) :=
  match cutDrive? path with
  | some (letter, rest) => do return '/' :: letter :: ':' :: (← quote rest)
  | none => quote path

/-- The URI of decoded parts. -/
def build (p : Parts Point) : Except Fault (List Char) := do
  let path ← quotePath p.path
  return unsplit {
    scheme := ← quote p.scheme
    authority := ← quote p.authority
    path
    params := ← quote p.params
    query := ← quote p.query
    fragment := ← quote p.fragment }

/-- The file path of a URI. -/
def toPath (backslashes : Bool) (uri : List Char) : Except Fault (List Char) := do
  let p ← parse uri
  let path :=
    if !p.authority.isEmpty && !p.path.isEmpty && p.scheme == "file".toList then
      '/' :: '/' :: (p.authority ++ p.path)
    else if hasDrive p.path then
      match p.path.drop 1 with
      | letter :: rest => letter.toLower :: rest
      | [] => []
    else p.path
  return if backslashes then path.map fun c => if c = '/' then '\\' else c else path

/-- A path that begins with a slash, with the letter of a drive in lower case. -/
def rootedPath (path : List Point) : List Point :=
  let path := if path.head? == some (.char '/') then path else .char '/' :: path
  match cutDrive? path with
  | some (letter, rest) => .char '/' :: .char letter.toLower :: .char ':' :: rest
  | none => path

/-- A path in the form that URIs have, and the host it names. -/
def normalizePath (backslashes : Bool) (path : List Point) :
    Except Fault (List Point × List Point) := do
  let path :=
    if backslashes then path.map fun c => if c = .char '\\' then .char '/' else c else path
  let (path, host) ←
    match path with
    | .char '/' :: .char '/' :: rest =>
      match Text.cutFirst? (.char '/') rest with
      | some (host, more) => pure (.char '/' :: more, host)
      | none => throw (.invalid "substring not found")
    | _ => pure (path, [])
  return (rootedPath path, host)

/-- The URI of a file path. -/
def ofPath (backslashes : Bool) (path : List Point) : Except Fault (List Char) := do
  let (path, host) ← normalizePath backslashes path
  build {
    scheme := points "file".toList, authority := host, path, params := [], query := []
    fragment := [] }

/-- New texts for some parts of a URI.  A part that is empty stays; a path has to be given. -/
structure Change where
  scheme : List Point := []
  authority : List Point := []
  path : Option (List Point)
  params : List Point := []
  query : List Point := []
  fragment : List Point := []

/-- The URI with parts replaced. A host in the new path is dropped. -/
def replace (backslashes : Bool) (uri : List Char) (c : Change) : Except Fault (List Char) := do
  let old := (← parse uri).points
  let (path, _) ←
    match c.path with
    | some path => normalizePath backslashes path
    | none => throw (if backslashes then .noMember else .mismatch)
  let pick (new old : List Point) := if new.isEmpty then old else new
  build {
    scheme := pick c.scheme old.scheme
    authority := pick c.authority old.authority
    path := pick path old.path
    params := pick c.params old.params
    query := pick c.query old.query
    fragment := pick c.fragment old.fragment }

end LangServer.Uri
