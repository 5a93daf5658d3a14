import LangServer.Fault

/-!
# Message templates

A template holds places to be filled: `%s` with the text of a value, `%r` with its literal, `%d` with
a whole number; `%%` is a per cent sign. There have to be exactly as many values as places.
-/

namespace LangServer.Text

/-- The failure for a place of an unknown kind, which names the kind and where it stands. -/
def unknownPlace (kind : Char) (index : Nat) : Fault :=
  let shown := if ' ' ≤ kind ∧ kind < '\x7f' then kind else '?'
  let code := String.ofList (Nat.toDigits 16 kind.toNat)
  .invalid s!"unsupported format character '{shown}' (0x{code}) at index {index}"

/-- A value at a place of the given kind. -/
def atPlace (index : Nat) : Char → Value → Except Fault (List Char)
  | 's', v => .ok v.display.toList
  | 'r', v => .ok v.literal
  | 'd', v =>
    match v.whole? with
    | some n => .ok (toString n).toList
    | none => .error .mismatch
  | kind, _ => .error (unknownPlace kind index)

/-- Fills the places of a template, from the left; `index` counts the characters before it. -/
def fillFrom (index : Nat) : List Char → List Value → Except Fault (List Char)
  | [], [] => .ok []
  | [], _ :: _ => .error .mismatch
  | '%' :: '%' :: rest, args => (fillFrom (index + 2) rest args).map ('%' :: ·)
  | '%' :: _ :: _, [] => .error .mismatch
  | '%' :: kind :: rest, a :: args => do
    let filled ← atPlace (index + 1) kind a
    return filled ++ (← fillFrom (index + 2) rest args)
  | ['%'], _ => .error (.invalid "incomplete format")
  | c :: rest, args => (fillFrom (index + 1) rest args).map (c :: ·)

/-- Fills the places of a template. -/
def fill (template : List Char) (args : List Value) : Except Fault (List Char) :=
  fillFrom 0 template args

end LangServer.Text
