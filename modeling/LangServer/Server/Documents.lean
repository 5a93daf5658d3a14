import LangServer.Server.Session

/-!
# Requests about documents

Opening, changing, saving and closing documents, and the questions that a client asks about them.
Every change asks for a lint, which is done after a pause and tells the client what was found.
-/

namespace LangServer.Session

/-- The parameters of a request. -/
abbrev Params := List (String × Value)

/-- A parameter, null when it is not given. -/
def arg (ps : Params) (name : String) : Value := (Value.lookup name ps).getD .null

/-- The URI of the document that a request is about. -/
def uriArg (ps : Params) : Serve Value := liftExcept ((arg ps "textDocument").item "uri")

/-! ## Linting -/

/-- How long a lint waits for further changes, in milliseconds. -/
def lintPause : Int := 500

/-- Asks for a lint of a document. -/
def requestLint (uri : Value) (isSaved : Bool) : Serve Unit := do
  if !uri.isHashable then throw .mismatch
  modify fun s => { s with
    timers := s.timers.debounce lintPause (Errand.isLintOf uri) (.lint uri isSaved) }

/-- Asks for a lint of all documents of a workspace but some. -/
def requestLints (space : Nat) (except : List String) : Serve Unit := do
  for (uri, _) in (← Host.space space).documents do
    if !except.contains uri then requestLint (.str uri) false

/-- Is a document open in a workspace? -/
def isOpen (space : Nat) : Value → Serve Bool
  | .str uri => return (Value.lookup uri (← Host.space space).documents).isSome
  | _ => return false

/-- Lints a document, if it is still open, and tells the client. -/
def lintNow (uri : Value) (isSaved : Bool) : Serve Unit := do
  let space ← require (← spaceFor uri)
  if ← isOpen space uri then
    let found ← hook (.lint isSaved) uri
    notify Host.diagnosticsMethod (Host.diagnosticsParams uri (← liftExcept found.flatten))

/-! ## Keeping documents -/

def didOpen (ps : Params) : Serve Value := do
  let uri ← uriArg ps
  let space ← require (← spaceFor uri)
  let name ← liftExcept (uri.textOr .noMember)
  let document := arg ps "textDocument"
  let text ← liftExcept (document.item "text")
  let version ← liftExcept (document.get "version")
  Host.openDocument space name (.ofValue text) version
  idleHook uri
  requestLint uri true
  return .null

def didChange (ps : Params) : Serve Value := do
  let uri ← uriArg ps
  let space ← spaceFor uri
  for change in ← liftExcept (arg ps "contentChanges").elements do
    let space ← require space
    let name ← liftExcept (uri.textOr (.missingKey uri))
    let version ← liftExcept ((arg ps "textDocument").get "version")
    Host.changeDocument space name change version
  requestLint uri false
  return .null

def didSave (ps : Params) : Serve Value := do
  requestLint (← uriArg ps) true
  return .null

def didClose (ps : Params) : Serve Value := do
  let uri ← uriArg ps
  let space ← require (← spaceFor uri)
  Host.closeDocument space (← liftExcept (uri.textOr (.missingKey uri)))
  return .null

/-! ## Questions -/

/-- Calls a hook whose answers are put together. -/
def flatHook (h : Hook) (uri : Value) : Serve Value := do
  liftExcept (← hook h uri).flatten

/-- The empty list, for hooks that no plugin implements. -/
def nothing (uri : Value) : Serve Value := do
  idleHook uri
  return .list []

/-- A value, or another one in place of an empty value. -/
def orElse (v default : Value) : Value := if v.truthy then v else default

def completion (ps : Params) : Serve Value := do
  let items ← flatHook (.completions (arg ps "position")) (← uriArg ps)
  return .object [("isIncomplete", .bool false), ("items", items)]

/-- Resolves a completion item, which is given by all parameters together. -/
def resolveCompletion (ps : Params) : Serve Value := do
  let data := (Value.lookup "data" ps).getD (.object [])
  let uri ← liftExcept (data.get "doc_uri")
  hook (.resolveCompletion (.object ps)) uri

def documentHighlight (ps : Params) : Serve Value := do
  return orElse (← flatHook (.highlights (arg ps "position")) (← uriArg ps)) .null

def hover (ps : Params) : Serve Value := do
  return orElse (← hook (.hover (arg ps "position")) (← uriArg ps))
    (.object [("contents", .str "")])

/-- References to a name. Whether to include its declaration has to be said, but plugins are not told:
they always do. -/
def references (ps : Params) : Serve Value := do
  let _ ← liftExcept ((arg ps "context").item "includeDeclaration")
  flatHook (.references (arg ps "position") false) (← uriArg ps)

end LangServer.Session
