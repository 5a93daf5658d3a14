import LangServer.Debounce
import LangServer.Hook
import LangServer.Spaces

/-!
# Sessions

A session is the server as one client sees it: the workspaces of its folders, one of which is the
root, the configuration in force, the calls that wait for their time, and what was sent to the client.
-/

namespace LangServer

/-- What waits for its time. -/
inductive Errand where
  /-- A lint of a document. -/
  | lint (uri : Value) (isSaved : Bool)
  /-- A look whether the parent process is still alive. -/
  | watch (pid : Value)
  deriving Inhabited

/-- Is the errand a lint of the document with a URI? -/
def Errand.isLintOf (uri : Value) : Errand → Bool
  | lint u _ => u.alike uri
  | watch _ => false

/-- The state of the server. -/
structure Session where
  host : Host := {}
  /-- Does the server watch its parent process? -/
  checksParent : Bool := false
  /-- The URI of the root folder as the client gave it, null before the start. -/
  rootUri : Value := .null
  /-- The workspace whose configuration is in force. -/
  config : Option Nat := none
  /-- The root workspace, which takes the documents that belong to no folder. -/
  root : Option Nat := none
  /-- The workspaces of the folders, by URI. -/
  folders : List (String × Nat) := []
  /-- Methods that are offered beside the server's own: what they answer, by name. -/
  extraMethods : List (List (String × Value)) := []
  isShutDown : Bool := false
  /-- Is the connection closed? -/
  isClosed : Bool := false
  isWatching : Bool := false
  timers : Timers Errand := {}
  /-- The messages that were sent, in order. Those that cannot be written get lost on the way. -/
  sent : List Value := []
  deriving Inhabited

/-- An action of the server. -/
abbrev Serve := EStateM Fault Session

/-- An action on the host, as an action of the server. -/
def Act.toServe {α : Type} (a : Act α) : Serve α := fun s =>
  match a s.host with
  | .ok x host => .ok x { s with host }
  | .error f host => .error f { s with host }

instance : MonadLift Act Serve := ⟨Act.toServe⟩

namespace Session

/-- A value that has to be there. -/
def require {α : Type} : Option α → Serve α
  | some a => return a
  | none => throw .noMember

/-- The workspace of a document: that of the best folder, or else the root. -/
def spaceOf? (s : Session) (uri : String) : Option Nat :=
  match Workspace.nearest? uri (s.folders.map (·.1)) with
  | some folder => (Value.lookup folder s.folders).orElse fun _ => s.root
  | none => s.root

/-- The workspace for a URI that a client sent; null stands for the root. -/
def spaceFor (uri : Value) : Serve (Option Nat) := do
  match uri with
  | .null => return (← get).root
  | .str uri => return (← get).spaceOf? uri
  | _ => throw .mismatch

/-- Sends a message, unless the connection is closed. -/
def send (message : Value) : Serve Unit :=
  modify fun s => if s.isClosed then s else { s with sent := s.sent ++ [message] }

/-- The messages that reach the client. -/
def delivered (s : Session) : List Value := s.sent.filter Json.isWritable

/-- Sends a notification. -/
def notify (method : String) (params : Value) : Serve Unit :=
  send (.object [("jsonrpc", .str "2.0"), ("method", .str method), ("params", params)])

/-! ## Hooks -/

/-- What a hook is called with: the caller, the document, and the URI under which it is open. -/
structure Setting where
  caller : Caller
  document : Option Document := none
  openAs : Option String := none

/-- Finds what hooks are called with for a document; an empty URI stands for none. -/
def settingFor (uri : Value) : Serve Setting := do
  let space ← spaceFor uri
  match uri with
  | .str u =>
    if u.isEmpty then
      let config ← require (← get).config
      return { caller := ⟨config, ← require space⟩ }
    else
      let space ← require space
      let d ← Host.document space u
      let config ← require (← get).config
      let isOpen := (Value.lookup u (← Host.space space).documents).isSome
      return { caller := ⟨config, space⟩, document := some d, openAs := if isOpen then some u else none }
  | _ =>
    let config ← require (← get).config
    return { caller := ⟨config, ← require space⟩ }

/-- The plugins that the configuration in force has switched on. -/
def plugins (config : Nat) : Serve (List Plugin) := do
  let c ← Host.config config
  let m := (← get).host.machine
  return m.loaded.filter fun p => c.runs m p

/-- Calls a hook for a document. A document that is open keeps what the plugins left on it. -/
def hook (h : Hook) (uri : Value) : Serve Value := do
  let now ← settingFor uri
  let plugins ← plugins now.caller.config
  let s ← get
  let (answer, desk) := h.call now.caller plugins ⟨s.host, now.document⟩
  set { s with host := desk.host }
  match now.openAs, desk.document with
  | some u, some d => Host.storeDocument now.caller.space u d
  | _, _ => pure ()
  return answer

/-- Calls a hook that no plugin implements. -/
def idleHook (uri : Value) : Serve Unit := do
  let _ ← settingFor uri
  return ()

end Session
end LangServer
