import LangServer.Diagnostic.Basic
import LangServer.Text.Lines

/-!
# Edits of a whole document

Formatters and renames give whole texts, so their answer is one edit: it replaces everything from the
first line to the start of the line after the last one.
-/

namespace LangServer.Document

/-- How many lines a text has. -/
def lineCount (s : String) : Nat := (Text.lines s.toList).length

/-- The edit that replaces the first `lines` lines by a text. -/
def wholeEdit (lines : Nat) (text : String) : Value :=
  .object [("range", .range (.position 0 (.int 0)) (.position lines (.int 0))),
    ("newText", .str text)]

end LangServer.Document
