import LangServer.Value.Access

/-!
# Gathering values

Answers of many plugins put together: lists into one list, objects into one object.
-/

namespace LangServer.Value

/-- The elements of the elements of a value. -/
def flatten (v : Value) : Except Fault Value := do
  return .list (← (← v.elements).mapM elements).flatten

/-- The members of an object. -/
def members : Value → Except Fault (List (String × Value))
  | object ms => .ok ms
  | _ => .error .noMember

/-- Sets members one after the other. -/
def insertAll (ms : List (String × Value)) (more : List (String × Value)) : List (String × Value) :=
  more.foldl (fun ms (k, v) => insert k v ms) ms

/-- The members of all objects in a value; of equal keys the last one stays. -/
def gather (v : Value) : Except Fault Value := do
  return .object (insertAll [] (← (← v.elements).mapM members).flatten)

/-- The texts in a list, joined by commas; any other value as it is. -/
def joined : Value → Except Fault Value
  | list items => do return .str (String.intercalate "," (← items.mapM (·.textOr .mismatch)))
  | v => .ok v

end LangServer.Value
