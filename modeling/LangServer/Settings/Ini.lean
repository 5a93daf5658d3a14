import LangServer.Fault
import LangServer.Text.Basic
import LangServer.Text.Lowercase

/-!
# Sectioned settings files

A file holds sections, each opened by its name in brackets, of options `name = value` or
`name : value`. A line indented deeper than its option continues the value; blank lines inside a
value belong to it; a line whose first mark is `#` or `;` is a comment. Option names are in lower
case. The options of the section `DEFAULT` are seen from every section.

Several files may be read one after the other into the same `Ini`; a later value replaces an earlier
one, but within one file a section may be opened, and an option of it set, only once.
-/

namespace LangServer.Settings

/-- Sections with their options, in order. -/
structure Ini where
  defaults : List (String × String) := []
  sections : List (String × List (String × String)) := []
  deriving DecidableEq, Repr, Inhabited

namespace Ini

/-- The section whose options are seen from every section. -/
def defaultName : String := "DEFAULT"

/-- Reading one file: what is open, what this file has set so far, and the lines of values, in
reverse. `current` is none before the first section. -/
structure Reader where
  file : String
  defaults : List (String × List String)
  sections : List (String × List (String × List String))
  opened : List String := []
  given : List (String × String) := []
  current : Option String := none
  option : String := ""
  indent : Nat := 0
  bad : List (Nat × String) := []

/-- The name in the brackets of a section line: up to the last closing bracket, and not empty. -/
def sectionName? (s : List Char) : Option String :=
  match s with
  | '[' :: rest =>
    match Text.cutLast? ']' rest with
    | some (name, _) => if name.isEmpty then none else some (String.ofList name)
    | none => none
  | _ => none

/-- An option line, cut at its first `=` or `:`. -/
def option? (s : List Char) : Option (List Char × List Char) :=
  let name := s.takeWhile fun c => c != '=' && c != ':'
  match s.drop name.length with
  | _ :: value => some (Text.trimEnd name, Text.trim value)
  | [] => none

/-- Changes the options of the open section. -/
def Reader.modify (r : Reader) (name : String)
    (f : List (String × List String) → List (String × List String)) : Reader :=
  if name = defaultName ∧ (Value.lookup name r.sections).isNone then
    { r with defaults := f r.defaults }
  else
    { r with sections := Value.insert name (f ((Value.lookup name r.sections).getD [])) r.sections }

/-- Adds a line to the value of the open option. -/
def Reader.extend (r : Reader) (name line : String) : Reader :=
  r.modify name fun options =>
    Value.insert r.option (line :: (Value.lookup r.option options).getD []) options

/-- Opens a section. -/
def Reader.open (r : Reader) (n : Nat) (name : String) : Except Problem Reader :=
  if (Value.lookup name r.sections).isSome then
    if r.opened.contains name then .error (.repeatedSection r.file n name)
    else .ok { r with current := some name, opened := name :: r.opened, option := "" }
  else if name = defaultName then .ok { r with current := some name, option := "" }
  else
    .ok { r with
      current := some name, opened := name :: r.opened, option := ""
      sections := Value.insert name [] r.sections }

/-- One line, with its number and its end. -/
def Reader.line (r : Reader) (n : Nat) (line : List Char) : Except Problem Reader := do
  let text := Text.trim line
  let comment := text.head? == some '#' || text.head? == some ';'
  if comment then return r
  if text.isEmpty then
    match r.current with
    | some name => return if r.option.isEmpty then r else r.extend name ""
    | none => return r
  let indent := (line.takeWhile Text.isBlank).length
  match r.current with
  | some name =>
    if !r.option.isEmpty && decide (r.indent < indent) then
      return r.extend name (String.ofList text)
  | none => pure ()
  let r := { r with indent }
  match sectionName? text with
  | some name => r.open n name
  | none =>
    match r.current with
    | none => throw (.noHeader r.file n (String.ofList line))
    | some name =>
      match option? text with
      | none => return { r with bad := r.bad ++ [(n, String.ofList line)] }
      | some (key, value) =>
        let r := if key.isEmpty then { r with bad := r.bad ++ [(n, String.ofList line)] } else r
        let key := String.ofList (Text.lower key)
        if r.given.contains (name, key) then throw (.repeatedOption r.file n name key)
        let r := { r with option := key, given := (name, key) :: r.given }
        return r.modify name (Value.insert key [String.ofList value])

/-- All lines of a file, numbered from `n`. -/
def Reader.lines (r : Reader) (n : Nat) : List (List Char) → Except Problem Reader
  | [] => .ok r
  | line :: rest => do (← r.line n line).lines (n + 1) rest

/-- The value of an option: its lines without blanks at the end. -/
def joinLines (lines : List String) : String :=
  String.ofList (Text.trimEnd (List.intercalate ['\n'] (lines.reverse.map String.toList)))

/-- The lines of a text that ends its lines with line feeds only. -/
def fileLines (s : List Char) : List (List Char) :=
  match s with
  | [] => []
  | _ =>
    let fields := Text.splitOn '\n' s
    let whole := fields.dropLast.map (· ++ ['\n'])
    match fields.getLast? with
    | some [] => whole
    | some last => whole ++ [last]
    | none => whole

/-- Reads one more file. -/
def read (ini : Ini) (file text : String) : Except Problem Ini := do
  let split (s : String) := [s]
  let r : Reader :=
    { file
      defaults := ini.defaults.map fun (k, v) => (k, split v)
      sections := ini.sections.map fun (k, os) => (k, os.map fun (o, v) => (o, split v)) }
  let r ← r.lines 1 (fileLines text.toList)
  if !r.bad.isEmpty then throw (.badLines file r.bad)
  return {
    defaults := r.defaults.map fun (k, ls) => (k, joinLines ls)
    sections := r.sections.map fun (k, os) => (k, os.map fun (o, ls) => (o, joinLines ls)) }

/-- The lower case of an option name. -/
def key (option : String) : String := String.ofList (Text.lower option.toList)

/-- Is the option set in the section, or for every section?  No name means the default section. -/
def has (ini : Ini) (name option : String) : Bool :=
  if name.isEmpty || name == defaultName then (Value.lookup (key option) ini.defaults).isSome
  else
    match Value.lookup name ini.sections with
    | some options =>
      (Value.lookup (key option) options).isSome || (Value.lookup (key option) ini.defaults).isSome
    | none => false

/-- The value of an option that is set. -/
def get (ini : Ini) (name option : String) : Except Problem String :=
  match Value.lookup name ini.sections with
  | some options =>
    .ok (((Value.lookup (key option) options).or (Value.lookup (key option) ini.defaults)).getD "")
  | none =>
    if name = defaultName then .ok ((Value.lookup (key option) ini.defaults).getD "")
    else .error (.noSection name)

end Ini
end LangServer.Settings
