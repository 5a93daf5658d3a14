import LangServer.Text.Basic
import LangServer.Text.Digit
import LangServer.Value.Basic

/-!
# The version of the server
-/

namespace LangServer.Version

/-- The version that the server tells its clients. -/
def current : String := "1.3.4.dev11+g6042dab"

/-- The parts of a version up to the first one that is no number, which goes without what follows a
plus sign. -/
def parts : List (List Char) → List Value
  | [] => []
  | part :: rest =>
    match Text.readInt part with
    | some n => .int n :: parts rest
    | none => [.str (String.ofList ((Text.splitOn '+' part).headD []))]

/-- The parts of a version, divided by points. -/
def info (version : String) : List Value := parts (Text.splitOn '.' version.toList)

end LangServer.Version
