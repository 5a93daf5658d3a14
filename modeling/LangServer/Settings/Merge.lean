import LangServer.Value.Access

/-!
# Merging settings

`merge a b` lays the object `b` over the object `a`, member by member: objects are merged in turn,
lists are joined without repetition, and otherwise the value of `b` wins unless it is null.
-/

namespace LangServer.Settings

/-- The elements of two lists, each once. Lists and objects cannot be elements. -/
def union (a b : List Value) : Except Fault (List Value) :=
  if (a ++ b).all Value.isHashable then .ok (Value.distinct [] (a ++ b)) else .error .mismatch

mutual

/-- One value over another under the same key. -/
def overlay (a : Value) : Value → Except Fault Value
  | .null => .ok a
  | .object bs =>
    match a with
    | .object as => return .object (← overMembers as bs)
    | _ => .ok (.object bs)
  | .list ys =>
    match a with
    | .list xs => return .list (← union xs ys)
    | _ => .ok (.list ys)
  | b => .ok b

/-- Members over members, those of `bs` one after the other. -/
def overMembers (as : List (String × Value)) :
    List (String × Value) → Except Fault (List (String × Value))
  | [] => .ok as
  | (key, b) :: bs => do
    let merged ←
      match Value.lookup key as with
      | some a => do pure (Value.insert key (← overlay a b) as)
      | none => pure (if b.isNull then as else Value.insert key b as)
    overMembers merged bs

end

/-- The object `b` over the object `a`. Both have to be objects. -/
def merge (a b : Value) : Except Fault Value :=
  match a, b with
  | .object as, .object bs => return .object (← overMembers as bs)
  | _, _ => .error .noMember

end LangServer.Settings
