import LangServer.Settings.Cache
import LangServer.Settings.Source

/-!
# Configurations

A configuration belongs to a root directory. Its settings are built up in layers: the defaults of
the plugins, what the client sent, the user's files, the project's files. Later layers win.

What the client sent is one object, however many configurations it is given to; `revision` tells
these objects apart. Two things change it in place (`Config.amend`): a lint that adds codes to the
client's list of ignored codes, and the start of an engine, which takes one variable out of the
client's environment variables.
-/

namespace LangServer

open Settings

/-- The configuration of one root directory. -/
structure Config where
  /-- Tells configurations apart in the settings cache. -/
  id : Nat
  rootUri : String
  rootPath : String
  initOptions : Value := .object []
  processId : Value := .null
  capabilities : Value := .object []
  /-- The defaults of the plugins. -/
  defaults : Value := .object []
  /-- What the client sent last. -/
  client : Value := .object []
  /-- Which of the client's objects that is. -/
  revision : Nat := 0
  /-- The plugins that are switched off; one that could not be loaded has no identity. -/
  disabled : List (Option Plugin) := []
  deriving Inhabited

namespace Config

/-- The kinds of files that are read when the client names none. -/
def defaultSources : Value := .texts ["pycodestyle"]

/-- The path of a document, or the root directory when there is none. -/
def lookupPath (root : String) (path : Value) : Except Fault String :=
  if path.truthy then path.textOr .mismatch else .ok root

/-- The path to the list of codes that a lint ignores. -/
def ignorePath : List String := ["plugins", "flake8", "ignore"]

/-- The path to the environment variables of an engine. -/
def environmentPath : List String := ["plugins", "jedi", "env_vars"]

/-- Is the list of ignored codes in the settings the client's own, untouched by any file? -/
def isClientsIgnores (client settings : Value) (layers : List Value) : Bool :=
  match client.path? ignorePath, settings.path? ignorePath with
  | some (.list _), some (.list _) => layers.all fun layer => (layer.path? ignorePath).isNone
  | _, _ => false

/-- The layer of one kind of files, given by its name. A kind that is not known adds nothing. -/
def layer (m : Machine) (read : Source → Except Fault Value) (name : Value) : Except Fault Value :=
  match name with
  | .str s =>
    match Source.ofName? m s with
    | some source => read source
    | none => .ok (.object [])
  | v => if v.isHashable then .ok (.object []) else .error .mismatch

/-- The settings of the project around a path, of one kind of files. -/
def project (m : Machine) (c : Config) (path : Value) (source : Source) : Except Fault Value := do
  if c.rootPath.isEmpty then source.settings m.files []
  else source.project m c.rootPath (← lookupPath c.rootPath path)

/-- The layers that come from files, the least important first: the user's, then the project's. The
kind of files that is named first is the most important of each. -/
def fileLayers (m : Machine) (c : Config) (path : Value) :
    Except Fault (List (Except Fault Value)) := do
  let names := (← (← c.client.getD "configurationSources" defaultSources).elements).reverse
  return names.map (layer m fun s => s.user m) ++ names.map (layer m (c.project m path))

/-- The settings for a path, computed afresh. -/
def compute (m : Machine) (c : Config) (path : Value) : Except Fault Settled := do
  let _ ← c.client.get? "configurationSources"
  let base ← merge (← merge (.object []) c.defaults) c.client
  let layers ← c.fileLayers m path
  let value ← layers.foldlM (fun settings layer => do merge settings (← layer)) base
  let known := layers.filterMap Except.toOption
  return { value, clientsIgnores := isClientsIgnores c.client value known }

/-- The settings, from the cache if they are in it. -/
def settled (m : Machine) (c : Config) (query : Query) : EStateM Fault Cache Settled := fun cache =>
  if !query.path.isHashable then .error .mismatch cache
  else
    match cache.fetch c.id query (c.compute m query.path) with
    | (.ok settled, cache) => .ok settled cache
    | (.error f, cache) => .error f cache

def settings (m : Machine) (c : Config) (query : Query) : EStateM Fault Cache Value := do
  return (← c.settled m query).value

/-- The part of the settings that a plugin has. -/
def ofPlugin (settings : Value) (plugin : String) : Except Fault Value := do
  (← settings.getD "plugins" (.object [])).getD plugin (.object [])

/-- The settings of a plugin for a path, null for none. -/
def pluginSettings (m : Machine) (c : Config) (plugin : String) (path : Value) :
    EStateM Fault Cache Value := do
  match ofPlugin (← c.settings m (.named path)) plugin with
  | .ok v => return v
  | .error f => throw f

/-- Is a plugin switched off? -/
def isDisabled (settings : Value) (p : Plugin) : Except Fault Bool := do
  return !(← (← ofPlugin settings p.name).getD "enabled" (.bool true)).truthy

/-- The plugins that settings switch off. Those that could not be loaded come first. -/
def disabledIn (m : Machine) (settings : Value) : Except Fault (List (Option Plugin)) := do
  let blocked ← m.blocked.filterM (isDisabled settings)
  let loaded ← m.loaded.filterM (isDisabled settings)
  return blocked.map (fun _ => none) ++ loaded.map some

/-- Finds out anew which plugins are switched off. -/
def refresh (m : Machine) (c : Config) : EStateM Fault Cache Config := do
  match disabledIn m (← c.settings m .plain) with
  | .ok disabled => return { c with disabled }
  | .error f => throw f

/-- A new configuration. -/
def create (m : Machine) (id : Nat) (rootUri : String) (initOptions processId capabilities : Value) :
    EStateM Fault Cache Config := do
  match m.pathOf rootUri, Plugin.defaults m.loaded with
  | .ok rootPath, .ok defaults =>
    refresh m { id, rootUri, rootPath, initOptions, processId, capabilities, defaults }
  | .error f, _ | _, .error f => throw f

/-- Takes over what the client sent, starting from an empty cache. The configuration keeps it even
when the settings that follow from it cannot be computed; the list of plugins that are switched off
then stays. -/
def update (m : Machine) (c : Config) (client : Value) (revision : Nat) :
    Config × Cache × Option Fault :=
  let c := { c with client, revision }
  match refresh m c {} with
  | .ok c cache => (c, cache, none)
  | .error f cache => (c, cache, some f)

/-- Is the plugin's hook called? -/
def runs (m : Machine) (c : Config) (p : Plugin) : Bool :=
  m.loaded.contains p && !c.disabled.contains (some p)

end Config
end LangServer
