import LangServer.CommandLine.Launch
import LangServer.Json.Writer
import LangServer.Server.Connection

/-!
# The program

Reads messages from the standard input and writes answers to the standard output. All that is decided
is decided elsewhere: this file reads bytes, keeps the time, and prints. No engine is attached, so that
answers which need one are those for a source in which nothing is found.
-/

namespace LangServer.Program

/-- Reads a number of bytes, fewer only at the end of the input. -/
partial def readBytes (input : IO.FS.Stream) (n : Nat) (got : Rpc.Bytes) : IO Rpc.Bytes := do
  if n = 0 then return got
  let chunk ← input.read n.toUSize
  if chunk.isEmpty then return got
  readBytes input (n - chunk.size) (got ++ chunk.toList.map UInt8.toNat)

/-- Reads all that is left. -/
partial def readAll (input : IO.FS.Stream) (got : Rpc.Bytes) : IO Rpc.Bytes := do
  let chunk ← input.read 4096
  if chunk.isEmpty then return got
  readAll input (got ++ chunk.toList.map UInt8.toNat)

/-- Reads header lines up to a blank one; is there one? -/
partial def skipHeaders (input : IO.FS.Stream) (line : Rpc.Bytes) : IO Bool := do
  if line.isEmpty then return false
  if line.all Rpc.isBlankByte then return true
  skipHeaders input (Text.encode (← input.getLine).toList)

/-- Reads the next message. -/
def readMessage (input : IO.FS.Stream) : IO Rpc.Reading := do
  let line := Text.encode (← input.getLine).toList
  if line.isEmpty then return .ended
  match Rpc.bodyLength? line with
  | none => return .badLength []
  | some length =>
    if !(← skipHeaders input line) then return .ended
    match length with
    | some n =>
      if !Rpc.isReadable n then return .hugeLength
      return .message (← if n < 0 then readAll input [] else readBytes input n.toNat []) []
    | none => return .message (← readAll input []) []

/-- Sets the clocks of a session. -/
def tick (now : Nat) (s : Session) : Session :=
  let s := { s with host := { s.host with
    machine := { s.host.machine with time := now / 1000 } } }
  match Session.advance (now - s.timers.now) s with
  | .ok _ s | .error _ s => s

/-- Answers messages until the input ends or the connection is closed. -/
partial def serve (input output : IO.FS.Stream) (last : Option Rpc.Bytes) (s : Session) : IO Unit := do
  if s.isClosed then return ()
  let reading ← readMessage input
  let s := tick (← IO.monoMsNow) s
  let flush (s : Session) : IO Session := do
    for message in s.delivered do
      let body := Text.encode (Json.render .compact message).toList
      output.write ⟨((Rpc.frame body).map Nat.toUInt8).toArray⟩
    output.flush
    return { s with sent := [] }
  match Rpc.deal last reading s with
  | .ok (some (body, _)) s => serve input output (some body) (← flush s)
  | .ok none s => let _ ← flush s
  | .error f s =>
    let _ ← flush s
    throw (IO.userError f.summary)

/-- The files that are named on the command line. -/
def namedFiles (arguments : List String) : IO Files := do
  let mut fs : Files := {}
  for path in arguments do
    try
      fs := fs.write path (← IO.FS.readFile path)
    catch _ => pure ()
  return fs

end LangServer.Program

open LangServer in
/-- Runs the server. -/
def main (arguments : List String) : IO UInt32 := do
  let fs ← Program.namedFiles arguments
  match CommandLine.Launch.launch fs arguments with
  | .error e =>
    IO.print e.out
    if !e.err.isEmpty then IO.eprintln e.err
    return e.code.toUInt32
  | .ok r =>
    if let some f := r.fault then
      IO.eprintln f.summary
      return 1
    match r.steps.getLast? with
    | some (.serveStreams _) =>
      Program.serve (← IO.getStdin) (← IO.getStdout) none {}
      return 0
    | _ =>
      IO.eprintln "network connections are not available"
      return 1
