import LangServer.Value.Literal

/-!
# What can be wrong with a settings file

A settings file has named sections of options. Its problems carry the file, and the lines as they
stand in it.
-/

namespace LangServer.Settings

/-- A problem of a settings file. -/
inductive Problem where
  /-- An option stands before the first section. -/
  | noHeader (file : String) (line : Nat) (text : String)
  /-- A section is opened twice in one file. -/
  | repeatedSection (file : String) (line : Nat) (name : String)
  /-- An option is set twice in one section of one file. -/
  | repeatedOption (file : String) (line : Nat) (name option : String)
  /-- Lines that are neither sections, options nor continuations. -/
  | badLines (file : String) (lines : List (Nat × String))
  /-- A section was asked for that no file has. -/
  | noSection (name : String)
  deriving DecidableEq, Repr, Inhabited

namespace Problem

/-- A line number, at least two characters wide. -/
def lineText (n : Nat) : String := if n < 10 then s!" {n}" else toString n

/-- The wording of a problem. -/
def message : Problem → String
  | noHeader file line text =>
    s!"File contains no section headers.\nfile: {Text.quote file}, line: {line}\n{Text.quote text}"
  | repeatedSection file line name =>
    s!"While reading from {Text.quote file} [line {lineText line}]: section " ++
      s!"{Text.quote name} already exists"
  | repeatedOption file line name option =>
    s!"While reading from {Text.quote file} [line {lineText line}]: option " ++
      s!"{Text.quote option} in section {Text.quote name} already exists"
  | badLines file lines =>
    s!"Source contains parsing errors: {Text.quote file}" ++
      String.join (lines.map fun (n, text) => s!"\n\t[line {lineText n}]: {Text.quote text}")
  | noSection name => s!"No section: {Text.quote name}"

end Problem
end LangServer.Settings
