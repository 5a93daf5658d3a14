import LangServer.Rpc.Endpoint

/-!
# Connections

The server talks to its client over its standard streams, or over a network socket, where it serves one
connection. Whatever happens on the network, the socket is closed in the end.
-/

namespace LangServer.Connection

/-- What is to handle a connection. -/
inductive Handler where
  | server
  /-- Something that is not a language server. -/
  | other
  deriving DecidableEq, Repr, Inhabited

/-- Only a language server can handle a connection. -/
def Handler.check : Handler → Except Fault Unit
  | server => .ok ()
  | other => .error (.invalid "Handler class must be an instance of PythonLSPServer")

/-- Serves the standard streams. -/
def serveStreams (handler : Handler) (input : Rpc.Bytes) : Serve Unit := do
  liftExcept handler.check
  Rpc.listen input

/-- What happens to a network socket. -/
inductive Event where
  | create (host : String) (port : Int)
  | bind (reuseAddress : Bool)
  | activate
  | serve
  | shutdown
  | close
  deriving DecidableEq, Repr, Inhabited

/-- A network address to serve, and what the network does there. -/
structure Socket where
  host : String
  port : Int
  /-- Why the address cannot be had. -/
  bindFault : Option Fault := none
  /-- Does reading from the connection fail? -/
  breaks : Bool := false
  deriving Inhabited

/-- Serves a network socket: what happens to it, and how it ends. A broken connection is no failure.
The server shuts down with its client if it watches its parent process. -/
def serveSocket (handler : Handler) (socket : Socket) (input : Rpc.Bytes) (s : Session) :
    List Event × Except Fault Unit × Session :=
  match handler.check with
  | .error f => ([], .error f, s)
  | .ok _ =>
    let opened := [.create socket.host socket.port, .bind true]
    match socket.bindFault with
    | some f => (opened ++ [.close], .error f, s)
    | none =>
      let serving := opened ++ [.activate, .serve]
      let ending := (if s.checksParent then [.shutdown] else []) ++ [.close]
      if socket.breaks then (serving ++ ending, .ok (), s)
      else
        match Rpc.listen input s with
        | .ok _ s => (serving ++ ending, .ok (), s)
        | .error f s => (serving ++ [.close], .error f, s)

end LangServer.Connection
