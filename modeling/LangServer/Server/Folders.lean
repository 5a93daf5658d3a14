import LangServer.Server.Documents
import LangServer.Version

/-!
# Starting, folders and settings

The start of a session, the folders that come and go, and new settings. Every folder has a workspace
with a configuration of its own, which takes over the client's settings of the configuration in force.
When the root folder goes, the first new folder becomes the root, or else the first folder by name.
-/

namespace LangServer.Session

/-! ## The end -/

/-- Closes the connection. -/
def close : Serve Unit := modify fun s => { s with isClosed := true }

/-! ## The parent process -/

/-- How long the server waits before it looks for its parent process again, in milliseconds. -/
def watchPause : Int := 10000

/-- Looks whether the parent process is alive. If it is, the server will look again; if not, it
closes the connection. -/
def watch (pid : Value) : Serve Unit := do
  let p ← liftExcept pid.number
  if (← get).host.machine.isAlive p then
    modify fun s => { s with timers := s.timers.start watchPause (.watch pid) }
  else close

/-! ## Folders -/

/-- Makes the workspace of a folder, with the settings of the configuration in force. -/
def addFolder (uri : Value) : Serve Unit := do
  let c ← Host.config (← require (← get).config)
  let name ← liftExcept (uri.textOr .noMember)
  let n ← Host.createSpace name c.initOptions c.processId c.capabilities
  Host.updateConfig n c.client c.revision
  modify fun s => { s with folders := Value.insert name n s.folders }

/-- Makes the workspaces of the folders that a client starts with, other than the root. -/
def addFolders (rootUri : String) (folders : Value) : Serve Unit := do
  if folders.truthy then
    for folder in ← liftExcept folders.elements do
      let uri ← liftExcept (folder.item "uri")
      if uri ≠ .str rootUri then addFolder uri

/-- Makes a folder the root. -/
def setRoot (uri : String) (n : Nat) : Serve Unit :=
  modify fun s => { s with rootUri := .str uri, config := some n, root := some n }

/-! ## Starting -/

/-- What the server can do. -/
def capabilities : Value :=
  .object [
    ("codeActionProvider", .bool true),
    ("codeLensProvider", .object [("resolveProvider", .bool false)]),
    ("completionProvider", .object [("resolveProvider", .bool true),
      ("triggerCharacters", .texts ["."])]),
    ("documentFormattingProvider", .bool true),
    ("documentHighlightProvider", .bool true),
    ("documentRangeFormattingProvider", .bool true),
    ("documentSymbolProvider", .bool true),
    ("definitionProvider", .bool true),
    ("executeCommandProvider", .object [("commands", .list [])]),
    ("hoverProvider", .bool true),
    ("referencesProvider", .bool true),
    ("renameProvider", .bool true),
    ("foldingRangeProvider", .bool true),
    ("signatureHelpProvider", .object [("triggerCharacters", .texts ["(", ",", "="])]),
    ("textDocumentSync", .object [("change", .int 2),
      ("save", .object [("includeText", .bool true)]), ("openClose", .bool true)]),
    ("workspace", .object [("workspaceFolders", .object [("supported", .bool true),
      ("changeNotifications", .bool true)])]),
    ("experimental", .object [])]

/-- The name and version of the server. -/
def serverInfo : Value := .object [("name", .str "pylsp"), ("version", .str Version.current)]

/-- The URI of a path that a client sent. -/
def uriOfPath (m : Machine) : Value → Except Fault String
  | .str path => m.uriOf path
  | .list _ => .error .noMember
  | _ => .error (if m.backslashes then .noMember else .mismatch)

/-- The URI of the root folder: as it is given, or that of the root path, or empty. -/
def rootUriArg (ps : Params) : Serve Value := do
  match arg ps "rootUri", arg ps "rootPath" with
  | .null, .null => return .str ""
  | .null, path => return .str (← liftExcept (uriOfPath (← get).host.machine path))
  | uri, _ => return uri

/-- Takes the old root folder out, and names the new one. -/
def leaveRoot (uri : Value) : Serve Unit := do
  let s ← get
  match s.rootUri with
  | .str old => set { s with rootUri := uri, folders := Value.erase old s.folders }
  | old => if old.isHashable then set { s with rootUri := uri } else throw .mismatch

/-- Starts the session. -/
def start (ps : Params) : Serve Value := do
  let processId := arg ps "processId"
  let uri ← rootUriArg ps
  leaveRoot uri
  let uri ← liftExcept (uri.textOr .noMember)
  let capable := (Value.lookup "capabilities" ps).getD (.object [])
  let n ← Host.createSpace uri (orElse (arg ps "initializationOptions") (.object [])) processId capable
  setRoot uri n
  modify fun s => { s with folders := Value.insert uri n s.folders }
  addFolders uri (arg ps "workspaceFolders")
  modify fun s => { s with extraMethods := [] }
  let _ ← hook .start .null
  let s ← get
  if s.checksParent && !processId.isNull && !s.isWatching then
    set { s with isWatching := true }
    watch processId
  return .object [("capabilities", capabilities), ("serverInfo", serverInfo)]

/-! ## Changes of folders -/

/-- Takes folders out. Only entries with a URI count. -/
def removeFolders : List Value → Serve Unit
  | [] => return ()
  | info :: rest => do
    if ← liftExcept (info.holds "uri") then
      match ← liftExcept (info.item "uri") with
      | .str uri => modify fun s => { s with folders := Value.erase uri s.folders }
      | v => if !v.isHashable then throw .mismatch
    removeFolders rest

/-- Puts folders in. Only entries with a URI count. -/
def insertFolders : List Value → Serve Unit
  | [] => return ()
  | info :: rest => do
    if ← liftExcept (info.holds "uri") then addFolder (← liftExcept (info.item "uri"))
    insertFolders rest

/-- Is the root among the folders that go?  Every entry up to the root has to have a URI. -/
def removesRoot (rootUri : Value) : List Value → Except Fault Bool
  | [] => .ok false
  | info :: rest => do
    if (← info.item "uri") = rootUri then return true else removesRoot rootUri rest

/-- The first of the folders that come, if it has a URI. -/
def firstAdded? (added : Value) : Except Fault (Option Value) := do
  let items ← added.elements
  match added, items with
  | .object _, _ :: _ => throw (.missingKey (.int 0))
  | _, [] => return none
  | _, info :: _ => if ← info.holds "uri" then return some (← info.item "uri") else return none

/-- The least of some texts. -/
def least? : List String → Option String
  | [] => none
  | x :: xs =>
    match least? xs with
    | some y => some (if y < x then y else x)
    | none => some x

/-- Makes the workspace of a folder the root. -/
def adoptRoot (uri : Value) : Serve Unit := do
  match uri with
  | .str name =>
    match Value.lookup name (← get).folders with
    | some n => setRoot name n
    | none => throw (.missingKey uri)
  | _ => throw (.missingKey uri)

/-- Makes another folder the root: the first that came, which is named as the root before its
workspace is looked up, or else the first by name. Without any other folder nothing changes. -/
def replaceRoot : Option Value → Serve Unit
  | some uri => do
    modify fun s => { s with rootUri := uri }
    adoptRoot uri
  | none => do
    match least? ((← get).folders.map (·.1)) with
    | some uri => adoptRoot (.str uri)
    | none => return ()

/-- Moves a document of the root workspace to the workspace it belongs to. -/
def migrate (root : Nat) (uri : String) : Serve Unit := do
  let w ← Host.space root
  match Value.lookup uri w.documents with
  | none => return ()
  | some d =>
    Host.setSpace root { w with documents := Value.erase uri w.documents }
    Host.storeDocument (((← get).spaceOf? uri).getD root) uri d

/-- Moves every document of the root workspace to the workspace it belongs to. -/
def migrateAll : Serve Unit := do
  let root ← require (← get).root
  for (uri, _) in (← Host.space root).documents do migrate root uri

def didChangeWorkspaceFolders (ps : Params) : Serve Value := do
  let event := arg ps "event"
  if event.isNull then return .null
  let added ← liftExcept (event.getD "added" (.list []))
  let removed ← liftExcept (event.getD "removed" (.list []))
  let gone ← liftExcept removed.elements
  removeFolders gone
  insertFolders (← liftExcept added.elements)
  if ← liftExcept (removesRoot (← get).rootUri gone) then
    replaceRoot (← liftExcept (firstAdded? added))
  else
    let _ ← liftExcept (firstAdded? added)
  migrateAll
  return .null

/-! ## Settings -/

def didChangeConfiguration (ps : Params) : Serve Value := do
  let settings := arg ps "settings"
  let revision ← Host.newRevision
  match (← get).config with
  | some n => Host.updateFrom n settings revision
  | none => pure ()
  for (_, n) in (← get).folders do
    Host.updateSpace n settings revision
    requestLints n []
  return .null

/-- Names of source files end in one of these. -/
def sourceEndings : List String := [".py", ".pyi"]

/-- Names of settings files end in one of these. -/
def settingsEndings : List String := ["pycodestyle.cfg", "setup.cfg", "tox.ini", ".flake8"]

def endsInAny (endings : List String) (s : String) : Bool :=
  endings.any fun e => e.toList.isSuffixOf s.toList

/-- The source files that have changed, and whether settings files have. -/
def sortChanges : List Value → Except Fault (List String × Bool)
  | [] => .ok ([], false)
  | change :: rest => do
    let uri ← (← change.item "uri").text
    let (sources, settings) ← sortChanges rest
    if endsInAny sourceEndings uri then return (uri :: sources, settings)
    else return (sources, settings || endsInAny settingsEndings uri)

def didChangeWatchedFiles (ps : Params) : Serve Value := do
  let changes := orElse (arg ps "changes") (.list [])
  let (sources, settings) ← liftExcept (do sortChanges (← changes.elements))
  if settings then
    let _ ← require (← get).config
    modify fun s => { s with host := { s.host with cache := {} } }
  else if sources.isEmpty then return .null
  for (_, n) in (← get).folders do requestLints n sources
  return .null

end LangServer.Session
