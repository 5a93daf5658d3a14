import LangServer.Document.Whole
import LangServer.Engine.Script
import LangServer.Refactoring.Project

/-!
# Renaming

Two engines can rename. Both answer with whole files, so a rename is one edit for each file, from its
first line to the end. The end is the number of lines of the new text for the analysis engine, and of
the old text for the refactoring engine.
-/

namespace LangServer.Refactoring

/-- The version of a document, null when it is not open. -/
def versionOf (documents : List (String × Document)) (uri : String) : Value :=
  match Value.lookup uri documents with
  | some d => d.version
  | none => .null

/-- The change of one file. -/
def documentChange (m : Machine) (w : Workspace) (path : String) (lines : Nat) (text : String) :
    Except Fault Value := do
  let uri ← m.uriOf path
  return .object [
    ("textDocument", .object [("uri", .str uri), ("version", versionOf w.documents uri)]),
    ("edits", .list [Document.wholeEdit lines text])]

/-- A set of changes for the editor. -/
def documentChanges (changes : List Value) : Value := .object [("documentChanges", .list changes)]

/-- The analysis engine's word for a rename that it cannot do. -/
def noRename : Fault := .unsupported
  "No support for renaming in Python 2/3.5 with Jedi. Consider using the rope_rename plugin instead"

/-- Renames what is at a position, by the analysis engine. -/
def renameByAnalysis (c : Caller) (position newName : Value) : Job Value := do
  let _ ← liftExcept ((← Job.document).word (← Job.files) position)
  let place ← Job.place position
  let files ←
    try Engine.query false "rename" (place ++ [("new_name", newName)]) (·.renamed)
    catch
      | .notImplemented _ => throw noRename
      | f => throw f
  let m ← Job.machine
  let w ← Host.space c.space
  return documentChanges (← files.mapM fun (path, text) =>
    liftExcept (documentChange m w path (Document.lineCount text) text))

/-- Renames what is at a position, by the refactoring engine. -/
def renameByRefactoring (c : Caller) (position newName : Value) : Job Value := do
  ensureProject c.space (← settings c)
  checkResource
  let d ← Job.document
  let offset ← liftExcept (d.offsetAt (← Job.files) position)
  Job.ask (.rename d.path offset)
  let _ ← liftExcept (d.word (← Job.files) position)
  Job.ask (.computeChanges newName)
  let changes ← liftExcept (← Job.engines).changes
  let m ← Job.machine
  let w ← Host.space c.space
  return documentChanges (← changes.mapM fun f =>
    liftExcept (documentChange m w f.path (Document.lineCount f.old) f.new))

end LangServer.Refactoring
