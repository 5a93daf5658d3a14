import LangServer.Host

/-!
# Are processes alive?

Whether a process is alive is asked in one of two ways: by a signal that does nothing, or, where that
is not possible, by opening the process and closing it again.
-/

namespace LangServer.Liveness

/-- The right to ask about a process. -/
def queryAccess : Int := 0x1000

/-- The handle of a process, zero if it is not alive. -/
def handle (m : Machine) (pid : Int) : Int := if m.alive.contains pid then 1000 + pid else 0

/-- Is a process alive?  It is if it can be opened. -/
def isAliveByHandle (pid : Int) : Act Bool := do
  Host.ask (.openProcess queryAccess 0 pid)
  let h := handle (← get).machine pid
  if h = 0 then return false
  Host.ask (.closeHandle h)
  return true

end LangServer.Liveness
