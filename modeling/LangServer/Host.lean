import LangServer.Diagnostic.Basic
import LangServer.Engine.Request
import LangServer.Workspace

/-!
# The host

The state that plugins share: the machine, the engines and what they were asked, the workspaces with
their configurations, and what plugins remember. Workspaces are known by their number, which is
their place in the list of all workspaces ever made.

A plugin does a `Job`: an action on the host and the document it was called for. When a job fails,
what it has done so far stays done.
-/

namespace LangServer

/-- The table of checks that the style checker runs. The formatter puts its own version of one check
into it while it works. -/
structure CheckTable where
  own : Bool := true
  formatters : Bool := false
  deriving DecidableEq, Repr, Inhabited

/-- What plugins share. -/
structure Host where
  machine : Machine := {}
  engines : Engines := {}
  /-- What the engines were asked, in order. -/
  asked : List Request := []
  cache : Settings.Cache := {}
  spaces : List Workspace := []
  /-- How many configurations have been made. -/
  configs : Nat := 0
  /-- How many objects the client has sent as settings. -/
  revisions : Nat := 0
  checks : CheckTable := {}
  labels : Completion.Resolver := { product := .label, onError := .str "" }
  snippets : Completion.Resolver := { product := .snippet, onError := .object [] }
  /-- The findings of the last lint of a saved file, by path. -/
  lastFindings : List (String × List Diagnostic) := []
  deriving Inhabited

/-- An action on the host. -/
abbrev Act := EStateM Fault Host

/-- The host and the document that a plugin was called for, if there is one. -/
structure Desk where
  host : Host
  document : Option Document

/-- An action on the host and a document. -/
abbrev Job := EStateM Fault Desk

/-- What a plugin is called with: the workspace whose configuration is in force, and the workspace of
the document. -/
structure Caller where
  config : Nat
  space : Nat
  deriving DecidableEq, Repr, Inhabited

instance {σ : Type} : MonadLift (Except Fault) (EStateM Fault σ) := ⟨liftExcept⟩

/-- An action on the host alone, in a job. -/
def Act.toJob {α : Type} (a : Act α) : Job α := fun desk =>
  match a desk.host with
  | .ok x host => .ok x { desk with host }
  | .error f host => .error f { desk with host }

instance : MonadLift Act Job := ⟨Act.toJob⟩

namespace Host

/-- Records a question to an engine. -/
def ask (r : Request) : Act Unit := modify fun h => { h with asked := h.asked ++ [r] }

/-- Replaces a workspace. -/
def setSpace (i : Nat) (w : Workspace) : Act Unit :=
  modify fun h => { h with spaces := h.spaces.set i w }

/-- The workspace with a number. -/
def space (i : Nat) : Act Workspace := do
  match (← get).spaces[i]? with
  | some w => return w
  | none => throw .noMember

/-- The configuration of a workspace. -/
def config (i : Nat) : Act Config := do
  match (← space i).config with
  | some c => return c
  | none => throw .noMember

/-- Runs an action on the settings cache. -/
def onCache {α : Type} (a : EStateM Fault Settings.Cache α) : Act α := fun h =>
  match a h.cache with
  | .ok x cache => .ok x { h with cache }
  | .error f cache => .error f { h with cache }

/-- The settings of a workspace's configuration. -/
def settings (i : Nat) (query : Settings.Query) : Act Value := do
  onCache ((← config i).settings (← get).machine query)

/-- The settings of a plugin, by the configuration of a workspace. -/
def pluginSettings (i : Nat) (plugin : String) (path : Value) : Act Value := do
  onCache ((← config i).pluginSettings (← get).machine plugin path)

/-- Gives the client's settings to the configuration of a workspace. -/
def updateConfig (i : Nat) (client : Value) (revision : Nat) : Act Unit := do
  let w ← space i
  let c ← config i
  let h ← get
  let (c, cache, fault?) := c.update h.machine client revision
  set { h with cache, spaces := h.spaces.set i { w with config := some c } }
  match fault? with
  | some f => throw f
  | none => return ()

/-- A number for an object that the client sends as settings. -/
def newRevision : Act Nat := do
  modify fun h => { h with revisions := h.revisions + 1 }
  return (← get).revisions

/-! ## Changes of settings in place -/

/-- Changes one value of the client's object with a revision: in every configuration that has it, and
in every answer of the cache that shares the value. -/
def amendClient (revision : Nat) (path : List String) (shared : Settings.Settled → Bool)
    (f : Value → Value) (h : Host) : Host :=
  let amend (w : Workspace) : Workspace :=
    match w.config with
    | some c =>
      if c.revision = revision then
        { w with config := some { c with client := c.client.modifyAt f path } }
      else w
    | none => w
  let owners := h.spaces.filterMap fun w =>
    w.config.bind fun c => if c.revision = revision then some c.id else none
  let entries := h.cache.entries.map fun e =>
    if owners.contains e.owner && shared e.settled then
      { e with settled := { e.settled with value := e.settled.value.modifyAt f path } }
    else e
  { h with spaces := h.spaces.map amend, cache := ⟨entries⟩ }

/-- A list with further items at its end. -/
def extend (items : List Value) : Value → Value
  | .list first => .list (first ++ items)
  | v => v

/-- Adds codes to the list of ignored codes that a question about settings gave. The client's own
list grows wherever it is used; a list made while merging grows only in this answer. -/
def extendIgnores (i : Nat) (query : Settings.Query) (codes : List Value) : Act Unit := do
  let c ← config i
  let h ← get
  match h.cache.find? c.id query with
  | none => return ()
  | some e =>
    if e.settled.clientsIgnores then
      set (amendClient c.revision Config.ignorePath (·.clientsIgnores) (extend codes) h)
    else
      let entries := h.cache.entries.map fun e =>
        if Settings.Cache.answers c.id query e then
          { e with settled :=
            { e.settled with value := e.settled.value.modifyAt (extend codes) Config.ignorePath } }
        else e
      set { h with cache := ⟨entries⟩ }

/-- Takes a variable out of the environment variables that the client set for the engine. -/
def dropVariable (i : Nat) (name : String) : Act Unit := do
  let c ← config i
  let drop : Value → Value
    | .object members => .object (Value.erase name members)
    | v => v
  modify (amendClient c.revision Config.environmentPath (fun _ => true) drop)

end Host

namespace Job

/-- The document that the plugin was called for. -/
def document : Job Document := do
  match (← get).document with
  | some d => return d
  | none => throw .noMember

def files : Job Files := return (← get).host.machine.files

def machine : Job Machine := return (← get).host.machine

def engines : Job Engines := return (← get).host.engines

def ask (r : Request) : Job Unit := Host.ask r

/-- The text of the document, or the given fault. -/
def sourceOr (fault : Fault) : Job String := do
  liftExcept ((← document).readOr fault (← files))

/-- The text of the document, which is asked for one of its operations. -/
def source : Job String := sourceOr .noMember

/-- What stands for the text of the document. -/
def held : Job Value := do liftExcept ((← document).held (← files))

/-- The lines of the document. -/
def lines : Job (List (List Char)) := do liftExcept ((← document).lines (← files))

/-- A position as the engine counts it. -/
def place (position : Value) : Job (List (String × Value)) := do
  match (← get).document with
  | some d => liftExcept (Document.place (d.lines (← files)) position)
  | none =>
    if !position.truthy then return []
    else do
      let _ ← liftExcept (position.item "line")
      let _ ← liftExcept (position.item "character")
      throw .noMember

/-- Replaces the document. -/
def setDocument (d : Document) : Job Unit := modify fun desk => { desk with document := some d }

/-- The path of the document as a value. -/
def pathValue : Job Value := return .str (← document).path

end Job
end LangServer
