import LangServer.Host

/-!
# Running linters as programs

A linter that is a program of its own reads the document from its standard input. When the program
is not there, the same linter is run as a module of the interpreter.
-/

namespace LangServer.Lint

/-- Starts a program, unless it is missing. -/
def start (command : List Value) : Act Unit := do
  Host.ask (.start command)
  match command with
  | .str program :: _ =>
    if (← get).engines.missingPrograms.contains program then throw (.noFile program)
    else return ()
  | _ => return ()

/-- Starts a program, or else another one. -/
def startOr (command otherwise : List Value) : Act Unit := do
  try start command
  catch
    | .noFile _ => start otherwise
    | f => throw f

/-- Starts a linter, or else the interpreter with the linter's module, feeds it the document and
gives what it prints. -/
def run (program : Value) (module : String) (args : List Value) : Job String := do
  startOr (program :: args) ([.str "python", .str "-m", .str module] ++ args)
  Job.ask (.feed (← Job.source))
  return (← Job.engines).program.out

end LangServer.Lint
