import LangServer.Text.Basic
import LangServer.Text.Digit
import LangServer.Value.Literal

/-!
# The grammar of a command line

A command line is made of switches, which may take a value, and of positional arguments. `words` sorts
the arguments: a switch may be shortened as long as it stays unambiguous, a value may be attached to it
with an equals sign, and after the divider `--` nothing is a switch.
-/

namespace LangServer.CommandLine

/-- A switch with all its names. -/
structure Switch where
  names : List String
  takesValue : Bool := false
  deriving DecidableEq, Repr, Inhabited

/-- How messages name a switch. -/
def Switch.title (s : Switch) : String := String.intercalate "/" s.names

/-- What a program takes on its command line. Every positional argument is required. -/
structure Grammar where
  program : String
  switches : List Switch
  positionals : List String := []
  deriving Inhabited

/-- What is wrong with a command line. -/
inductive Problem where
  | ambiguous (argument : String) (candidates : List String)
  | expectedValue (title : String)
  /-- A value is attached to a switch that takes none. -/
  | ignoredValue (title value : String)
  /-- A value that cannot be used. -/
  | badValue (title reason : String)
  /-- Two switches that exclude each other. -/
  | conflict (title other : String)
  | missing (titles : List String)
  | unrecognized (arguments : List String)
  deriving DecidableEq, Repr, Inhabited

/-- The wording of a problem. -/
def Problem.message : Problem → String
  | ambiguous argument candidates =>
    "ambiguous option: " ++ argument ++ " could match " ++ String.intercalate ", " candidates
  | expectedValue title => "argument " ++ title ++ ": expected one argument"
  | ignoredValue title value =>
    "argument " ++ title ++ ": ignored explicit argument " ++ Text.quote value
  | badValue title reason => "argument " ++ title ++ ": " ++ reason
  | conflict title other => "argument " ++ title ++ ": not allowed with argument " ++ other
  | missing titles => "the following arguments are required: " ++ String.intercalate ", " titles
  | unrecognized arguments => "unrecognized arguments: " ++ String.intercalate " " arguments

/-- An argument by its role. -/
inductive Word where
  /-- A switch, the name it was given by, and a value attached to it. -/
  | switch (s : Switch) (name : String) (attached : Option String)
  /-- What looks like a switch and is none. -/
  | unknown (text : String)
  | plain (text : String)
  /-- The divider after which everything is plain. -/
  | divider
  deriving DecidableEq, Repr, Inhabited

def Word.isDivider : Word → Bool
  | divider => true
  | _ => false

/-- The divider. -/
def dividerText : String := "--"

/-- Is a text a negative number?  A line feed at its end does not matter. -/
def isNegative (s : List Char) : Bool :=
  let s := if s.getLast? = some '\n' then s.dropLast else s
  match s with
  | '-' :: rest =>
    match rest.dropWhile Text.isDigit with
    | [] => !rest.isEmpty
    | '.' :: fraction => !fraction.isEmpty && fraction.all Text.isDigit
    | _ => false
  | _ => false

namespace Grammar

/-- All names of switches. -/
def names (g : Grammar) : List (String × Switch) :=
  g.switches.flatMap fun s => s.names.map fun n => (n, s)

/-- The switch of a name. -/
def switch? (g : Grammar) (name : String) : Option Switch :=
  (g.names.find? fun (n, _) => n == name).map (·.2)

/-- A text before and after its first equals sign. -/
def splitValue (s : List Char) : List Char × Option String :=
  match Text.cutFirst? '=' s with
  | some (name, value) => (name, some (String.ofList value))
  | none => (s, none)

/-- The switches that an argument may mean, with the name and the attached value of each. After two
dashes the beginning of a name is enough; after one dash the rest may be attached to a short name. -/
def candidates (g : Grammar) : List Char → List (Switch × String × Option String)
  | '-' :: '-' :: rest =>
    let (stem, value) := splitValue ('-' :: '-' :: rest)
    g.names.filterMap fun (n, s) =>
      if stem.isPrefixOf n.toList then some (s, n, value) else none
  | '-' :: c :: rest =>
    g.names.filterMap fun (n, s) =>
      if n.toList = ['-', c] then some (s, n, some (String.ofList rest))
      else if ('-' :: c :: rest).isPrefixOf n.toList then some (s, n, none)
      else none
  | _ => []

/-- The role of an argument before the divider. -/
def word (g : Grammar) (argument : String) : Except Problem Word :=
  let s := argument.toList
  let (name, value) := splitValue s
  if s.head? ≠ some '-' then .ok (.plain argument)
  else
    match g.switch? argument, g.switch? (String.ofList name) with
    | some found, _ => .ok (.switch found argument none)
    | none, some found => .ok (.switch found (String.ofList name) value)
    | none, none =>
      match g.candidates s with
      | [(found, n, attached)] => .ok (.switch found n attached)
      | [] =>
        if s.length = 1 || isNegative s || s.contains ' ' then .ok (.plain argument)
        else .ok (.unknown argument)
      | many => .error (.ambiguous argument (many.map (·.2.1)))

/-- The roles of all arguments. -/
def words (g : Grammar) : List String → Except Problem (List Word)
  | [] => .ok []
  | argument :: rest =>
    if argument = dividerText then .ok (.divider :: rest.map .plain)
    else do return (← g.word argument) :: (← g.words rest)

end Grammar
end LangServer.CommandLine
