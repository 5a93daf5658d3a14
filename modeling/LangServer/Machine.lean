import LangServer.Files
import LangServer.Uri.File
import LangServer.Plugin

/-!
# The machine

What the server can see of the machine it runs on: the files, the platform, the processes that are
alive, the clock, which optional parts are installed, and the classes of exceptions.
-/

namespace LangServer

structure Machine where
  files : Files := {}
  platform : String := "linux"
  /-- Are paths written with backslashes? -/
  backslashes : Bool := false
  /-- Processes that answer, and, negated, processes that exist but belong to others. -/
  alive : List Int := []
  /-- The clock, in seconds. -/
  time : Int := 0
  /-- Plugins that cannot be loaded. -/
  broken : List String := []
  /-- Kinds of settings files that cannot be read. -/
  missingSources : List String := []
  /-- The classes that are made directly from the general exception. -/
  exceptionClasses : List String := []
  deriving Inhabited

namespace Machine

/-- The path of the file that a URI names. -/
def pathOf (m : Machine) (uri : String) : Except Fault String :=
  return String.ofList (← Uri.toPath m.backslashes uri.toList)

/-- The URI of a file. -/
def uriOf (m : Machine) (path : String) : Except Fault String :=
  return String.ofList (← Uri.ofPath m.backslashes (Text.points path.toList))

/-- The URI with another path. -/
def uriWith (m : Machine) (uri path : String) : Except Fault String :=
  return String.ofList (← Uri.replace m.backslashes uri.toList
    { path := some (Text.points path.toList) })

/-- Is a process alive?  It is if it answers or belongs to another user. -/
def isAlive (m : Machine) (pid : Int) : Bool :=
  0 ≤ pid && (m.alive.contains pid || m.alive.contains (-pid))

/-- The plugins that can be loaded, in order. -/
def loaded (m : Machine) : List Plugin := Plugin.all.filter fun p => !m.broken.contains p.name

/-- The plugins that cannot be loaded, in order. -/
def blocked (m : Machine) : List Plugin := Plugin.all.filter fun p => m.broken.contains p.name

end Machine
end LangServer
