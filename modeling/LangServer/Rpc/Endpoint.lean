import LangServer.Rpc.Framing
import LangServer.Server.Dispatch

/-!
# The end point of a connection

Messages come in as JSON: requests, which get an answer, notifications, which get none, and answers to
requests of the server, which it does not wait for.
-/

namespace LangServer.Rpc

/-- The version of the protocol. -/
def protocolVersion : Value := .str "2.0"

/-- The method that takes a request back. -/
def cancelMethod : Value := .str "$/cancelRequest"

/-- What the name of a method, as a message gives it, stands for. -/
def targetOf (method : Value) : Serve (Option Session.Target) := do
  let s ← get
  match method with
  | .str name => return s.target? name
  | _ => if s.isShutDown then return none else throw .noMember

/-- Deals with a notification. Its failure is no one's business. -/
def handleNotification (method params : Value) : Serve Unit := do
  if method = cancelMethod then
    let _ ← liftExcept (params.item "id")
    return ()
  else
    match ← targetOf method with
    | none => return ()
    | some t =>
      try
        let _ ← Session.call params t
      catch _ => return ()

/-- The error for a method that is not offered. -/
def notFound (name : String) : Value :=
  .object [("code", .int (-32601)), ("message", .str ("Method Not Found: " ++ name))]

/-- The error for a request that failed. -/
def failed (f : Fault) : Value := .object [("code", .int (-32602)), ("message", .str f.summary)]

/-- The message that answers a request. -/
def response (id : Value) (key : String) (v : Value) : Value :=
  .object [("jsonrpc", protocolVersion), ("id", id), (key, v)]

/-- The answer to a request: its key and value. -/
def answer (method params : Value) : Serve (String × Value) := do
  match ← targetOf method with
  | some t => return ("result", ← Session.call params t)
  | none => return ("error", notFound (← liftExcept (method.textOr .mismatch)))

/-- Answers a request. -/
def handleRequest (id method params : Value) : Serve Unit := do
  let (key, v) ← try answer method params catch f => pure ("error", failed f)
  Session.send (response id key v)

/-- Deals with a message. Messages of another protocol are ignored. -/
def consume (message : Value) : Serve Unit := do
  if !(← liftExcept (message.holds "jsonrpc")) then return ()
  if (← liftExcept (message.item "jsonrpc")) ≠ protocolVersion then return ()
  let params ← liftExcept (message.get "params")
  match ← liftExcept (message.get? "id"), ← liftExcept (message.get? "method") with
  | none, none => throw (.missingKey (.str "method"))
  | none, some method => handleNotification method params
  | some _, none => return ()
  | some id, some method => handleRequest id method params

/-- Deals with the body of a message. A body that is no JSON is passed over. -/
def consumeBody (body : Bytes) : Serve Unit := do
  match (Text.decode? body).bind (Json.parse? .message) with
  | some message => consume message
  | none => return ()

/-- The failure for a length that is too large to be read. -/
def hugeLength : Fault :=
  .reported "OverflowError" "cannot fit 'int' into an index-sized integer"

/-- Deals with what was read: the body that was dealt with and the rest of the input, if there is more.
In place of a message with a malformed length the one before, `last`, is dealt with again. -/
def deal (last : Option Bytes) : Reading → Serve (Option (Bytes × Bytes))
  | .ended => return none
  | .hugeLength => throw hugeLength
  | .message body rest => do
    consumeBody body
    return some (body, rest)
  | .badLength rest => do
    match last with
    | none => throw .unassigned
    | some body =>
      consumeBody body
      return some (body, rest)

/-- Deals with the messages of an input until it ends or the connection is closed. `fuel` bounds the
number of messages. -/
def listenFrom : Nat → Option Bytes → Bytes → Serve Unit
  | 0, _, _ => return ()
  | fuel + 1, last, input => do
    if (← get).isClosed then return ()
    match ← deal last (readNext input) with
    | none => return ()
    | some (body, rest) => listenFrom fuel (some body) rest

/-- Deals with all messages of an input. Every message takes a byte at least. -/
def listen (input : Bytes) : Serve Unit := listenFrom (input.length + 1) none input

end LangServer.Rpc
