import LangServer.Settings.Ini
import LangServer.Value.Access

/-!
# Options of a settings file, and where they go

An option of a file has a type and a destination, a dotted path into the settings. `parse` reads a
list of options from one section into an object.
-/

namespace LangServer.Settings

/-- The type of an option. -/
inductive Kind where
  | bool
  | int
  | text
  | list
  /-- A type that options cannot have. -/
  | unknown (name : String)
  deriving DecidableEq, Repr, Inhabited

/-- An option by its name in files, its destination and its type. -/
structure FileOption where
  name : String
  destination : String
  kind : Kind
  deriving DecidableEq, Repr, Inhabited

/-! ## List options -/

/-- The elements of a list written with commas; blanks around them and empty elements are
dropped. -/
def commaList (s : List Char) : List (List Char) :=
  ((Text.splitOn ',' s).map Text.trim).filter (!·.isEmpty)

/-- The elements of a list written one on each line, with commas at the ends of lines. -/
def lineList (s : List Char) : List (List Char) :=
  (((Text.splitOn '\n' s).map Text.trim).filter (!·.isEmpty)).map
    (Text.dropEndWhile (· == ','))

/-- How the list options of a kind of file are written: always with commas, or one element on each
line when the text begins with a line end. -/
inductive ListStyle where
  | commas
  | linesOrCommas
  deriving DecidableEq, Repr, Inhabited

/-- The elements of a list option. -/
def ListStyle.parse (style : ListStyle) (s : List Char) : List (List Char) :=
  match style, s with
  | .linesOrCommas, '\n' :: _ => lineList s
  | _, _ => commaList s

/-! ## Typed values -/

/-- The words for truth values. -/
def truth? (s : String) : Option Bool :=
  let word := String.ofList (Text.lower s.toList)
  if ["1", "yes", "true", "on"].contains word then some true
  else if ["0", "no", "false", "off"].contains word then some false
  else none

/-- The value of an option's text. -/
def Kind.value (kind : Kind) (style : ListStyle) (s : String) : Except Fault Value :=
  match kind with
  | bool =>
    match truth? s with
    | some b => .ok (.bool b)
    | none => .error (.invalid s!"Not a boolean: {s}")
  | int =>
    match Text.readInt s.toList with
    | some n => .ok (.int n)
    | none => .error (.badNumeral s.toList)
  | text => .ok (.str s)
  | list => .ok (.list ((style.parse s.toList).map fun x => .str (String.ofList x)))
  | unknown name => .error (.invalid s!"Unknown option type: <class '{name}'>")

/-- The value of an option in a section, under its name or its name with underscores. -/
def FileOption.read (o : FileOption) (style : ListStyle) (ini : Ini) (name : String) :
    Except Fault (Option Value) := do
  let plain := String.ofList (o.name.toList.map fun c => if c = '-' then '_' else c)
  let spelling? := [o.name, plain].find? fun spelling => ini.has name spelling
  match spelling? with
  | none => return none
  | some spelling =>
    match o.kind with
    | .unknown _ => return some (← o.kind.value style "")
    | _ =>
      match ini.get name spelling with
      | .ok s => return some (← o.kind.value style s)
      | .error problem => throw (.badSettings problem)

/-! ## Destinations -/

/-- Sets the value at a path of keys, making objects on the way. It is a mismatch when something
that is no object stands in the way. -/
def setAt (v : Value) : List String → Value → Except Fault Value
  | [], w => .ok w
  | [key], .object members => .ok (.object (Value.insert key v members))
  | key :: rest, .object members => do
    let inner := (Value.lookup key members).getD (.object [])
    return .object (Value.insert key (← setAt v rest inner) members)
  | _ :: _, _ => .error .mismatch

/-- Sets the value at a dotted path, unless it is null. -/
def setOption (settings : Value) (path : String) (v : Value) : Except Fault Value :=
  if v.isNull then .ok settings
  else setAt v ((Text.splitOn '.' path.toList).map String.ofList) settings

/-- The options that a section sets, as an object. -/
def parse (style : ListStyle) (ini : Ini) (name : String) (options : List FileOption) :
    Except Fault Value :=
  options.foldlM (fun settings o => do
    match ← o.read style ini name with
    | some v => setOption settings o.destination v
    | none => return settings) (.object [])

end LangServer.Settings
