import LangServer.Host

/-!
# Workspaces at work

What the server and its tests do with the workspaces of a host: making them, opening, changing and
closing documents, handing on settings, and talking to the editor.
-/

namespace LangServer.Host

/-! ## Making workspaces -/

/-- Makes a configuration. -/
def createConfig (rootUri : String) (initOptions processId capabilities : Value) : Act Config := do
  let h ← get
  set { h with configs := h.configs + 1 }
  onCache (Config.create h.machine h.configs rootUri initOptions processId capabilities)

/-- Adds a workspace and gives its number. -/
def addSpace (rootUri : String) (config : Option Config) : Act Nat := do
  let h ← get
  let w ← liftExcept (Workspace.create h.machine rootUri config)
  set { h with spaces := h.spaces ++ [w] }
  return h.spaces.length

/-- Makes a workspace with a configuration of its own, and gives its number. -/
def createSpace (rootUri : String) (initOptions processId capabilities : Value) : Act Nat := do
  addSpace rootUri (some (← createConfig rootUri initOptions processId capabilities))

/-! ## Documents -/

/-- A new document of a workspace, which is not kept. -/
def newDocument (home : Nat) (uri : String) (source : Content) (version : Value) :
    Act Document := do
  let w ← space home
  liftExcept (w.newDocument (← get).machine home uri source version)

/-- Opens a document. -/
def openDocument (home : Nat) (uri : String) (source : Content) (version : Value) :
    Act Unit := do
  let d ← newDocument home uri source version
  let w ← space home
  setSpace home { w with documents := Value.insert uri d w.documents }

/-- The document that is open under a URI, or one that reads the file. -/
def document (home : Nat) (uri : String) : Act Document := do
  match Value.lookup uri (← space home).documents with
  | some d => return d
  | none => newDocument home uri .file .null

/-- Closes a document. -/
def closeDocument (home : Nat) (uri : String) : Act Unit := do
  let w ← space home
  match Value.lookup uri w.documents with
  | some _ => setSpace home { w with documents := Value.erase uri w.documents }
  | none => throw (.missingKey (.str uri))

/-- Puts back a document that is open. -/
def storeDocument (home : Nat) (uri : String) (d : Document) : Act Unit := do
  let w ← space home
  setSpace home { w with documents := Value.insert uri d w.documents }

/-- Applies a change to an open document. -/
def changeDocument (home : Nat) (uri : String) (change version : Value) : Act Unit := do
  match Value.lookup uri (← space home).documents with
  | some d =>
    let d ← liftExcept (d.change (← get).machine.files change)
    storeDocument home uri { d with version }
  | none => throw (.missingKey (.str uri))

/-! ## Settings -/

/-- The part of the editor's settings that is for this server. -/
def serverPart (settings : Value) : Except Fault Value :=
  (if settings.truthy then settings else .object []).getD "pylsp" (.object [])

/-- Hands new settings to the configuration of a workspace. -/
def updateFrom (home : Nat) (settings : Value) (revision : Nat) : Act Unit := do
  let _ ← config home
  updateConfig home (← liftExcept (serverPart settings)) revision

/-- Hands new settings to a workspace and to its documents, which may have been made in another
workspace. -/
def updateSpace (home : Nat) (settings : Value) (revision : Nat) : Act Unit := do
  updateFrom home settings revision
  for (_, d) in (← space home).documents do
    updateFrom d.home settings revision

/-! ## The editor -/

/-- Asks the editor to apply an edit. -/
def applyEdit (edit : Value) : Act Unit :=
  ask (.editorRequest "workspace/applyEdit" (.object [("edit", edit)]))

/-- The parameters of a message about the diagnostics of a document. -/
def diagnosticsParams (uri diagnostics : Value) : Value :=
  .object [("uri", uri), ("diagnostics", diagnostics)]

/-- The method of a message about the diagnostics of a document. -/
def diagnosticsMethod : String := "textDocument/publishDiagnostics"

/-- Tells the editor the diagnostics of a document. -/
def publishDiagnostics (uri diagnostics : Value) : Act Unit :=
  ask (.editorNotify diagnosticsMethod (diagnosticsParams uri diagnostics))

/-- Has the editor show a message. -/
def showMessage (message type : Value) : Act Unit :=
  ask (.editorNotify "window/showMessage" (.object [("type", type), ("message", message)]))

end LangServer.Host
