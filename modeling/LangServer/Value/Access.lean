import LangServer.Fault

/-!
# Reading parts of a value

Settings and message parameters have no fixed shape, so every read says what happens when the shape
is not the expected one: asking for an optional member of something that has no members is
`Fault.noMember`, and subscripting something that has no such subscript is `Fault.mismatch`.
-/

namespace LangServer.Value

/-- An optional member. -/
def get? (v : Value) (key : String) : Except Fault (Option Value) :=
  match v with
  | object members => .ok (lookup key members)
  | _ => .error .noMember

/-- An optional member, or a default. -/
def getD (v : Value) (key : String) (default : Value) : Except Fault Value :=
  return (← v.get? key).getD default

/-- An optional member, null when it is absent. -/
def get (v : Value) (key : String) : Except Fault Value := v.getD key null

/-- A member that has to be there. -/
def item (v : Value) (key : String) : Except Fault Value :=
  match v with
  | object members =>
    match lookup key members with
    | some w => .ok w
    | none => .error (.missingKey (str key))
  | _ => .error .mismatch

/-- What a value runs through: the items of a list, the keys of an object, the characters of a
text. -/
def elements : Value → Except Fault (List Value)
  | list items => .ok items
  | object members => .ok (members.map fun (k, _) => str k)
  | str s => .ok (s.toList.map fun c => str (String.singleton c))
  | _ => .error .mismatch

/-- Does the value hold the text `part`, as a key, an item or a part of it? -/
def holds (v : Value) (part : String) : Except Fault Bool :=
  match v with
  | list items => .ok (items.any fun w => w = str part)
  | object members => .ok (lookup part members).isSome
  | str s => .ok ((s.splitOn part).length != 1 || part.isEmpty)
  | _ => .error .mismatch

/-- A whole number; truth values count as zero and one. -/
def number : Value → Except Fault Int
  | int n => .ok n
  | bool b => .ok (if b then 1 else 0)
  | _ => .error .mismatch

/-- A text, or the given fault. -/
def textOr (fault : Fault) : Value → Except Fault String
  | str s => .ok s
  | _ => .error fault

/-- A text that is asked for one of its operations. -/
def text (v : Value) : Except Fault String := v.textOr .noMember

/-- The value at a path of keys, if every step is there. -/
def path? : List String → Value → Option Value
  | [], v => some v
  | key :: rest, object members => (lookup key members).bind (path? rest)
  | _ :: _, _ => none

/-- Changes the value at a path of keys, if it is there. -/
def modifyAt (f : Value → Value) : List String → Value → Value
  | [], v => f v
  | key :: rest, object members =>
    match lookup key members with
    | some w => object (insert key (modifyAt f rest w) members)
    | none => object members
  | _ :: _, v => v

end LangServer.Value
