import LangServer.CommandLine.Launch
import LangServer.SettingsDoc

/-!
# Writing the documentation of the settings

A small program reads a schema and writes its documentation. Both files are opened while the command
line is taken in, so a later problem leaves an empty output file behind. The name `-` stands for the
standard streams.
-/

namespace LangServer.CommandLine.Documentation

/-- The command line of the program. -/
def grammar : Grammar where
  program := "jsonschema2md.py"
  switches := [⟨["-h", "--help"], false⟩]
  positionals := ["schema", "markdown"]

/-- The name that stands for a standard stream. -/
def streamName : String := "-"

/-- The world of the program: its files, its standard input, and why no file can be written. -/
structure World where
  files : Files := {}
  input : String := ""
  writeFault : Option Fault := none
  deriving Inhabited

/-- Where the output goes. -/
inductive Output where
  | stream
  | file (path : String)
  deriving DecidableEq, Repr, Inhabited

/-- What the program has opened: the schema as its name and text, and the output. -/
structure Opened where
  schema : Option (String × String) := none
  output : Option Output := none
  deriving Inhabited

/-- How a run ends. -/
inductive Ending where
  | exit (e : Exit)
  | failed (f : Fault)
  | done
  deriving Inhabited

/-- A run: how it ends, the files written with their texts, and what is printed. -/
structure Run where
  ending : Ending
  written : List (String × String) := []
  out : String := ""
  deriving Inhabited

/-- A file that cannot be opened. -/
def cannotOpen (title path : String) (f : Fault) : Exit :=
  .ofProblem grammar (.badValue title ("can't open '" ++ path ++ "': " ++ f.message))

/-- Opens the schema. -/
def openSchema (w : World) (path : String) : Except Exit (String × String) :=
  if path = streamName then .ok ("<stdin>", w.input)
  else
    match w.files.read path with
    | .ok text => .ok (path, text)
    | .error f => .error (cannotOpen "schema" path f)

/-- Opens the output. -/
def openOutput (w : World) (path : String) : Except Exit Output :=
  if path = streamName then .ok .stream
  else
    match w.writeFault with
    | some f => .error (cannotOpen "markdown" path f)
    | none =>
      if path.isEmpty then .error (cannotOpen "markdown" path (.noFile path))
      else if w.files.isDirectory path.toList then
        .error (cannotOpen "markdown" path (.isDirectory path))
      else .ok (.file path)

/-- Takes the arguments in their order: what is opened at the end, and what ended the program. -/
def take (w : World) (o : Opened) : List Taken → Opened × Option Exit
  | [] => (o, none)
  | t :: rest =>
    match t.title, t.value with
    | "schema", some path =>
      match openSchema w path with
      | .ok schema => take w { o with schema := some schema } rest
      | .error e => (o, some e)
    | "markdown", some path =>
      match openOutput w path with
      | .ok output => take w { o with output := some output } rest
      | .error e => (o, some e)
    | "-h/--help", _ => (o, some ⟨0, "", ""⟩)
    | _, _ => take w o rest

/-- The files that are open for writing, with the text that ends up in them. -/
def Opened.written (o : Opened) (text : String) : List (String × String) :=
  match o.output with
  | some (.file path) => [(path, text)]
  | _ => []

/-- The documentation for what was opened. -/
def Opened.document (o : Opened) : Except Fault String :=
  match o.schema with
  | none => .error .noMember
  | some (name, text) =>
    match Json.parse? .strict text.toList with
    | none => .error .badJson
    | some schema => SettingsDoc.convert schema (.str name)

/-- Runs the program. -/
def run (w : World) (arguments : List String) : Run :=
  let s := grammar.scan arguments
  let (o, exit) := take w {} s.taken
  match exit, s.problem with
  | some e, _ => { ending := .exit e, written := o.written "" }
  | none, some p => { ending := .exit (.ofProblem grammar p), written := o.written "" }
  | none, none =>
    match o.document, o.output with
    | .error f, _ => { ending := .failed f, written := o.written "" }
    | .ok _, none => { ending := .failed .noMember }
    | .ok text, some .stream => { ending := .done, out := text }
    | .ok text, some (.file path) => { ending := .done, written := [(path, text)] }

end LangServer.CommandLine.Documentation
