import LangServer.Rpc.Method
import LangServer.Server.Folders

/-!
# Dispatching requests

A request names a method and gives parameters by name. After a shutdown only the end of the session
can be asked for.
-/

namespace LangServer.Session

open Rpc

/-- Does what a method asks for. -/
def handle (ps : Params) : Method → Serve Value
  | .start => start ps
  | .started => do idleHook .null; return .null
  | .shutdown => do modify fun s => { s with isShutDown := true }; return .null
  | .exit => do close; return .null
  | .resolveCompletion => resolveCompletion ps
  | .didOpen => didOpen ps
  | .didChange => didChange ps
  | .didSave => didSave ps
  | .didClose => didClose ps
  | .codeAction => do nothing (← uriArg ps)
  | .codeLens => do nothing (← uriArg ps)
  | .completion => completion ps
  | .definition => do flatHook (.definitions (arg ps "position")) (← uriArg ps)
  | .documentHighlight => documentHighlight ps
  | .hover => hover ps
  | .documentSymbol => do flatHook .symbols (← uriArg ps)
  | .formatting => do hook .formatDocument (← uriArg ps)
  | .rangeFormatting => do hook (.formatRange (arg ps "range")) (← uriArg ps)
  | .rename => do hook (.rename (arg ps "position") (arg ps "newName")) (← uriArg ps)
  | .foldingRange => do flatHook .folding (← uriArg ps)
  | .references => references ps
  | .signatureHelp => do hook (.signatureHelp (arg ps "position")) (← uriArg ps)
  | .didChangeConfiguration => didChangeConfiguration ps
  | .didChangeWorkspaceFolders => didChangeWorkspaceFolders ps
  | .didChangeWatchedFiles => didChangeWatchedFiles ps
  | .executeCommand => do idleHook .null; return .null

/-- What a name of a method stands for: a method of the server, or an extra one with its answer. -/
inductive Target where
  | own (m : Method)
  | extra (answer : Value)
  deriving Inhabited

/-- What a name stands for now. -/
def target? (s : Session) (name : String) : Option Target :=
  if s.isShutDown && name != "exit" then none
  else
    match Method.ofName? name with
    | some m => some (.own m)
    | none => (s.extraMethods.findSome? (Value.lookup name)).map .extra

/-- The parameters for a method, by name. The name of the server itself cannot be given. -/
def bindParams (m : Method) (params : Value) : Except Fault Params :=
  if !params.truthy then .ok []
  else
    match params with
    | .object ps =>
      let allowed := match m.parameters? with
        | some names => ps.all fun (k, _) => names.contains k
        | none => true
      if allowed && ps.all fun (k, _) => k != "self" then .ok ps else .error .mismatch
    | _ => .error .mismatch

/-- Calls what a name stands for. -/
def call (params : Value) : Target → Serve Value
  | .own m => do handle (← liftExcept (bindParams m params)) m
  | .extra answer => return .list [answer, params]

/-- Answers a request. -/
def request (name : String) (params : Value) : Serve Value := do
  match (← get).target? name with
  | some t => call params t
  | none => throw .unknownMethod

/-! ## The clock -/

/-- Does an errand whose time has come. -/
def run : Errand → Serve Unit
  | .lint uri isSaved => lintNow uri isSaved
  | .watch pid => watch pid

/-- Sets the clock forward to a time, and does what comes due on the way; `fuel` bounds how much. -/
def advanceTo (limit : Int) : Nat → Serve Unit
  | 0 => modify fun s => { s with timers := { s.timers with now := limit } }
  | fuel + 1 => do
    match (← get).timers.next? limit with
    | some (errand, timers) =>
      modify fun s => { s with timers }
      run errand
      advanceTo limit fuel
    | none => modify fun s => { s with timers := { s.timers with now := limit } }

/-- Sets the clock forward. Each waiting errand comes due once, and once more for every pause of the
watch. -/
def advance (time : Int) : Serve Unit := do
  let t := (← get).timers
  advanceTo (t.now + time) (t.waiting.length * ((time / watchPause).toNat + 2))

end LangServer.Session
