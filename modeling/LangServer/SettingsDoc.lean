import LangServer.Json.Writer
import LangServer.Value.Gather

/-!
# Documentation of the settings

A schema of the settings is turned into a table in Markdown, with one row for each setting.
-/

namespace LangServer.SettingsDoc

theorem sizeOf_lookup_lt {key : String} {ms : List (String × Value)} {v : Value}
    (h : Value.lookup key ms = some v) : sizeOf v < sizeOf (Value.object ms) := by
  induction ms with
  | nil => simp [Value.lookup] at h
  | cons m rest ih =>
    obtain ⟨k, w⟩ := m
    rw [Value.lookup] at h
    split at h
    · cases h; simp; omega
    · have := ih h; simp at this ⊢; omega

/-- What is said about a number: its bounds. -/
def numberExtra (ms : List (String × Value)) : String :=
  let bound (key mark : String) : List String :=
    match Value.lookup key ms with
    | some v => [mark ++ v.display]
    | none => []
  String.intercalate "," (bound "minimum" ">= " ++ bound "maximum" "<= ")

/-- May elements of a list repeat?  Nothing is said if the schema does not tell. -/
def uniqueness (ms : List (String × Value)) : String :=
  match Value.lookup "uniqueItems" ms with
  | some v => if v.truthy then "unique" else "non-unique"
  | none => ""

/-- A value as code. -/
def code (v : Value) : String := "\x60" ++ v.display ++ "\x60"

/-- The allowed values. -/
def allowed (ms : List (String × Value)) : Except Fault String :=
  match Value.lookup "enum" ms with
  | some v => do return "one of: " ++ String.intercalate ", " ((← v.elements).map code)
  | none => .ok ""

/-- The type of a setting in words. Lists tell about their elements, numbers about their bounds, and
only these two about the values that are allowed. -/
def describe (prop : Value) : Except Fault String :=
  match _shape : prop with
  | .object ms => do
    let type ← prop.item "type"
    if !type.isHashable then throw .mismatch
    let label := code type
    if type = .str "array" then
      match _items : Value.lookup "items" ms with
      | some items =>
        let inner ← describe items
        return label ++ " " ++ " of " ++ uniqueness ms ++ " " ++ inner ++ " items" ++ (← allowed ms)
      | none => return label ++ " " ++ (← allowed ms)
    else if type = .str "number" then
      return label ++ " " ++ numberExtra ms ++ (← allowed ms)
    else return label
  | _ => .error .mismatch
termination_by prop
decreasing_by exact sizeOf_lookup_lt _items

/-- The row of a setting. -/
def row (key : String) (prop : Value) : Except Fault String := do
  let description ← prop.getD "description" (.str "")
  let default ← prop.getD "default" (.str "")
  let default := Json.render .spaced default
  return "| " ++ code (.str key) ++ " | " ++ (← describe prop) ++ " | " ++ description.display ++
    " | " ++ code (.str default) ++ " |"

/-- The head of the table. -/
def head : List String :=
  ["", "| **Configuration Key** | **Type** | **Description** | **Default** ", "|----|----|----|----|"]

/-- Where the documentation comes from, if that is known. -/
def footer (source : Value) : List String :=
  if source.truthy then
    ["\nThis documentation was generated from " ++ code source ++
      ". Please do not edit this file directly."]
  else []

/-- The documentation for a schema. -/
def convert (schema source : Value) : Except Fault String := do
  let title ← schema.item "title"
  let description ← schema.item "description"
  let properties ← (← schema.item "properties").members
  let rows ← properties.mapM fun (key, prop) => row key prop
  let description ← description.textOr .mismatch
  return String.intercalate "\n"
    (["# " ++ title.display, description] ++ head ++ rows ++ footer source ++ [""])

end LangServer.SettingsDoc
